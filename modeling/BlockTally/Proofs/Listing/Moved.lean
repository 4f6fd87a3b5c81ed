import BlockTally.Proofs.Listing.Paired
import BlockTally.Proofs.Listing.Turns

/-! Two texts that share a stretch. An entity is read from its stretch alone, wherever that stands: it
looks at the text between its own tokens and up to the end of a line, and no farther than the next
token. Main statements: `alike_readHeader`, `alike_readEntity`. -/
namespace BlockTally.Listing
open Read Text

section
variable {pre a b post : List Char} {n : Nat}

private theorem takeBytes?_within (short : n ≤ byteLength a) (b : List Char) :
    takeBytes? n (a ++ b) = takeBytes? n a := by
  induction a generalizing n with
  | nil =>
    obtain rfl : n = 0 := Nat.le_zero.mp short
    rw [takeBytes?_zero, takeBytes?_zero]
  | cons c a ih =>
    cases n with
    | zero => rw [takeBytes?_zero, takeBytes?_zero]
    | succ n =>
      rw [byteLength_cons] at short
      rw [List.cons_append, takeBytes?, takeBytes?]
      split
      · rw [ih (by omega)]
      · rfl

/-- A slice of a stretch is the same wherever the stretch stands. -/
theorem slice?_within (short : n ≤ byteLength a + byteLength b) :
    slice? (pre ++ (a ++ b ++ post)) (byteLength pre + byteLength a) (byteLength pre + n) =
      if byteLength a ≤ n then (takeBytes? (n - byteLength a) b).map String.ofList else none := by
  have whole : pre ++ (a ++ b ++ post) = (pre ++ a) ++ (b ++ post) := by simp
  rw [slice?, whole, ← byteLength_append, dropBytes?_append, byteLength_append,
    Nat.add_sub_add_left, Option.bind_some, takeBytes?_within (by omega)]
  simp only [Nat.add_le_add_iff_left]

end

private theorem dropWhile_append_some {α : Type} {p : α → Bool} {xs ys : List α}
    (stops : xs.dropWhile p = [] → ys = []) : (xs ++ ys).dropWhile p = xs.dropWhile p ++ ys := by
  rw [List.dropWhile_append]
  split
  · rename_i none
    obtain rfl := stops (List.isEmpty_iff.mp none)
    simpa using (List.isEmpty_iff.mp none).symm
  · rfl

theorem Placed.start_lt {text : List Char} {v : Lexeme} (placed : Placed text v) :
    v.start < byteLength text := by
  obtain ⟨piece, ⟨before, behind, same, start⟩, -, some⟩ := placed
  have size := congrArg byteLength same
  have pos := byteLength_pos some
  simp only [byteLength_append] at size
  omega

private theorem dropWhile_map_shift (o k : Nat) (vs : List Lexeme) :
    (vs.map (·.shift o)).dropWhile (fun t => decide (t.start < o + k)) =
      (vs.dropWhile (fun t => decide (t.start < k))).map (·.shift o) := by
  rw [List.dropWhile_map]
  congr 2
  funext t
  simp [Lexeme.shift]

/-- A text that stands in two sources, and what stands before and behind it in each. When no tokens
are left over, nothing stands behind it. -/
structure Stretch where
  text : List Char
  front : List Char
  front' : List Char
  back : List Char
  back' : List Char
  limit : Nat
  ends : limit = 0 → back = [] ∧ back' = []

namespace Stretch
variable (S : Stretch)

def src : List Char := S.front ++ (S.text ++ S.back)

def src' : List Char := S.front' ++ (S.text ++ S.back')

/-- Tokens at the same places of the stretch. -/
def Moved (ts us : List Lexeme) : Prop :=
  ∃ vs : List Lexeme, ts = vs.map (·.shift (byteLength S.front)) ∧
    us = vs.map (·.shift (byteLength S.front')) ∧ ∀ v ∈ vs, Placed S.text v

/-- Tokens of the stretch, and fewer behind it than are to be left. -/
def pairing : Pairing where
  pairs := fun ts us => ∃ run run' later later', ts = run ++ later ∧ us = run' ++ later' ∧
    S.Moved run run' ∧ later'.map (·.token) = later.map (·.token) ∧ later.length ≤ S.limit - 1
  limit := S.limit
  nil := by
    rintro us ⟨run, run', later, later', none, rfl, ⟨vs, rfl, rfl, -⟩, same, -⟩
    obtain ⟨run, rfl⟩ := List.append_eq_nil_iff.mp none.symm
    obtain rfl := List.map_eq_nil_iff.mp run
    simpa using same
  cons := by
    rintro t ts us ⟨run, run', later, later', whole, rfl, ⟨vs, rfl, rfl, placed⟩, same, short⟩
    cases vs with
    | nil =>
      obtain rfl : t :: ts = later := whole
      cases later' with
      | nil => cases same
      | cons u more =>
        obtain ⟨token, same⟩ := List.cons.inj same
        refine ⟨u, more, rfl, token, [], [], ts, more, rfl, rfl, ⟨[], rfl, rfl, ?_⟩, same, ?_⟩
        · exact List.forall_mem_nil _
        · exact (Nat.le_succ _).trans short
    | cons v vs =>
      obtain ⟨rfl, rfl⟩ := List.cons.inj whole
      exact ⟨_, _, rfl, rfl, _, _, later, later', rfl, rfl,
        ⟨vs, rfl, rfl, (List.forall_mem_cons.mp placed).2⟩, same, short⟩

variable {S}

theorem Moved.nil : S.Moved [] [] := ⟨[], rfl, rfl, List.forall_mem_nil _⟩

theorem Moved.cons {t u : Lexeme} {ts us : List Lexeme} (first : S.Moved [t] [u])
    (more : S.Moved ts us) : S.Moved (t :: ts) (u :: us) := by
  obtain ⟨vs, here, there, placed⟩ := first
  obtain ⟨ws, rfl, rfl, placed'⟩ := more
  refine ⟨vs ++ ws, ?_, ?_, List.forall_mem_append.mpr ⟨placed, placed'⟩⟩
  · rw [List.map_append, ← here, List.singleton_append]
  · rw [List.map_append, ← there, List.singleton_append]

theorem Moved.last {ts us : List Lexeme} (moved : S.Moved ts us) :
    (ts.getLast? = none ∧ us.getLast? = none) ∨
      ∃ v, Placed S.text v ∧ ts.getLast? = some (v.shift (byteLength S.front)) ∧
        us.getLast? = some (v.shift (byteLength S.front')) := by
  obtain ⟨vs, rfl, rfl, placed⟩ := moved
  rw [List.getLast?_map, List.getLast?_map]
  cases last : vs.getLast? with
  | none => exact .inl ⟨rfl, rfl⟩
  | some v => exact .inr ⟨v, placed v (List.mem_of_getLast? last), rfl, rfl⟩

/-- The text of a run of tokens is the same in both. -/
theorem Moved.span? {ts us : List Lexeme} (moved : S.Moved ts us) :
    span? S.src' us = span? S.src ts := by
  obtain ⟨vs, rfl, rfl, placed⟩ := moved
  unfold Listing.span?
  rw [List.getLast?_map, List.getLast?_map, List.head?_map, List.head?_map]
  cases first : vs.head? with
  | none => rfl
  | some v =>
    cases last : vs.getLast? with
    | none => rfl
    | some w =>
      obtain ⟨piece, ⟨a, b, same, start⟩, -, -⟩ := placed v (List.mem_of_head? first)
      obtain ⟨piece', ⟨a', b', same', start'⟩, stop, -⟩ := placed w (List.mem_of_getLast? last)
      have short : w.stop ≤ byteLength a + byteLength (piece ++ b) := by
        have size := congrArg byteLength (same.symm.trans same')
        simp only [byteLength_append] at size ⊢
        omega
      simp only [Option.map_some, Lexeme.shift, src, src', same, ← start]
      rw [slice?_within short, slice?_within short]

/-- Reading the text of a run of tokens. -/
theorem Moved.alike {σ : Type} {R : σ → σ → Prop} {ts us : List Lexeme} (moved : S.Moved ts us) :
    Alike S.pairing R (readSpan S.src ts) (readSpan S.src' us) := by
  unfold readSpan
  rw [moved.span?]
  infer_instance

/-- What stands before a place of the stretch, and behind it. -/
def Offset (S : Stretch) (n : Nat) (behind : List Char) : Prop :=
  ∃ before, S.text = before ++ behind ∧ byteLength before = n

variable {σ : Type} {R : σ → σ → Prop} {ts us : List Lexeme} {s s' : σ} {n : Nat} {behind : List Char}

private theorem lineEnd_moved (offset : S.Offset n behind) :
    (∃ k, k ≤ byteLength S.text ∧
      lineEnd? S.src (byteLength S.front + n) = some (byteLength S.front + k) ∧
      lineEnd? S.src' (byteLength S.front' + n) = some (byteLength S.front' + k)) ∨
    S.limit ≠ 0 ∧ ∃ stop, lineEnd? S.src (byteLength S.front + n) = some stop ∧
      byteLength S.front + byteLength S.text ≤ stop := by
  obtain ⟨before, same, rfl⟩ := offset
  have line : ∀ front back, lineEnd? (front ++ (before ++ behind ++ back))
      (byteLength front + byteLength before) =
        some (byteLength front + (byteLength before + firstLine (behind ++ back))) := by
    intro front back
    have whole : front ++ (before ++ behind ++ back) = (front ++ before) ++ (behind ++ back) := by
      simp
    rw [whole, ← byteLength_append, lineEnd?_behind, byteLength_append, Nat.add_assoc]
  rw [src, src', same, line, line]
  by_cases flat : ∀ c ∈ behind, c ≠ '\n'
  · by_cases none : S.limit = 0
    · obtain ⟨back, back'⟩ := S.ends none
      refine .inl ⟨byteLength before + firstLine behind, ?_, ?_, ?_⟩
      · have short := firstLine_le behind
        rw [byteLength_append]
        omega
      · rw [back, List.append_nil]
      · rw [back', List.append_nil]
    · refine .inr ⟨none, _, rfl, ?_⟩
      rw [firstLine_append flat, byteLength_append]
      omega
  · refine .inl ⟨byteLength before + firstLine behind, ?_, ?_, ?_⟩
    · have short := firstLine_le behind
      rw [byteLength_append]
      omega
    · rw [firstLine_broken flat]
    · rw [firstLine_broken flat]

/-- The tokens of the line end before those that are left over. -/
theorem stops_before {rest later run : List Lexeme} {p : Lexeme → Bool}
    (behind : rest = (run ++ later).dropWhile p) (short : later.length ≤ S.limit - 1)
    (enough : S.limit ≤ rest.length) (passed : run.dropWhile p = []) : S.limit = 0 ∧ later = [] := by
  rw [List.dropWhile_append, passed] at behind
  have size := congrArg List.length behind
  have less := (List.dropWhile_suffix p (l := later)).length_le
  simp only [List.isEmpty_nil, if_true] at size
  refine ⟨by omega, List.eq_nil_of_length_eq_zero (by omega)⟩

/-- What is left of moved tokens behind a place that has moved with them. -/
theorem dropWhile_shift_append {k : Nat} {vs more : List Lexeme} (o : Nat)
    (none : vs.dropWhile (fun t => decide (t.start < k)) = [] → more = []) :
    (vs.map (·.shift o) ++ more).dropWhile (fun t => decide (t.start < o + k)) =
      (vs.dropWhile fun t => decide (t.start < k)).map (·.shift o) ++ more := by
  rw [dropWhile_append_some (by simpa [dropWhile_map_shift] using none), dropWhile_map_shift]

private theorem takeWhile_dropWhile_shift (k o : Nat) (vs more : List Lexeme) :
    vs.map (·.shift o) ++ more =
    (vs.takeWhile fun t => decide (t.start < k)).map (·.shift o) ++
      ((vs.dropWhile fun t => decide (t.start < k)).map (·.shift o) ++ more) := by
  rw [← List.append_assoc, ← List.map_append, List.takeWhile_append_dropWhile]

/-- The rest of a line, which ends before the next token. -/
theorem follows_restOfLine (offset : S.Offset n behind) (paired : S.pairing.pairs ts us)
    (related : R s s') :
    Follows S.pairing R (fun line line' => S.Moved line line' ∧ ∃ k, k ≤ byteLength S.text ∧
        lineEnd? S.src (byteLength S.front + n) = some (byteLength S.front + k) ∧
        lineEnd? S.src' (byteLength S.front' + n) = some (byteLength S.front' + k))
      (restOfLine S.src (byteLength S.front + n)) (restOfLine S.src' (byteLength S.front' + n))
      ts us s s' where
  refuses := by
    intro e failed none
    rcases lineEnd_moved offset with ⟨k, -, stop, -⟩ | ⟨some, -⟩
    · rcases bind_error failed with absent | ⟨_, _, _, _, passing⟩
      · rw [stop] at absent
        cases absent
      · cases passing
    · exact absurd none some
  reads := by
    intro line rest t read enough
    obtain ⟨_, _, _, found, taking⟩ := reads_bind.mp read
    obtain ⟨here, rfl, rfl⟩ := reads_present.mp found
    obtain ⟨passing, whole⟩ := reads_taken.mp taking
    obtain ⟨left, rfl⟩ := reads_skipWhile.mp passing
    obtain ⟨_, _, later, later', rfl, rfl, ⟨vs, rfl, rfl, placed⟩, same, short⟩ := paired
    rcases lineEnd_moved offset with ⟨k, inside, stop, stop'⟩ | ⟨some, last, stop, far⟩
    · obtain rfl := Option.some.inj (stop.symm.trans here)
      have nothing : vs.dropWhile (fun t => decide (t.start < k)) = [] → later = [] := fun none =>
        (stops_before left short enough (by rw [dropWhile_map_shift, none]; rfl)).2
      have nothing' : vs.dropWhile (fun t => decide (t.start < k)) = [] → later' = [] := fun none =>
        List.map_eq_nil_iff.mp (same.trans (by rw [nothing none]; rfl))
      rw [dropWhile_shift_append _ nothing] at left
      subst left
      rw [takeWhile_dropWhile_shift k] at whole
      obtain rfl := List.append_cancel_right whole
      refine ⟨_, _, s', reads_bind.mpr ⟨_, _, _, reads_present.mpr ⟨stop', rfl, rfl⟩,
        reads_taken.mpr ⟨reads_skipWhile.mpr ⟨rfl, rfl⟩, ?_⟩⟩, ⟨⟨_, rfl, rfl, ?_⟩, k, inside, stop,
        stop'⟩, ⟨_, _, later, later', rfl, ?_, ⟨_, rfl, rfl, ?_⟩, same, short⟩, related⟩
      · rw [dropWhile_shift_append _ nothing']
        exact takeWhile_dropWhile_shift k _ _ _
      · exact fun v mem => placed v ((List.takeWhile_prefix _).subset mem)
      · rw [dropWhile_shift_append _ nothing']
      · exact fun v mem => placed v ((List.dropWhile_suffix _).subset mem)
    · obtain rfl : last = _ := Option.some.inj (stop.symm.trans here)
      have passed : (vs.map (·.shift (byteLength S.front))).dropWhile
          (fun t => decide (t.start < last)) = [] := by
        rw [List.dropWhile_eq_nil_iff]
        intro t mem
        obtain ⟨v, here, rfl⟩ := List.mem_map.mp mem
        have early := (placed v here).start_lt
        refine decide_eq_true ?_
        simp only [Lexeme.shift]
        omega
      exact absurd (stops_before left short enough passed).1 some

/-- What is taken stands in the stretch, when enough is left. -/
theorem moved_of_pairs {took took' rest left : List Lexeme}
    (paired : S.pairing.pairs (took ++ rest) (took' ++ left)) (behind : S.pairing.pairs rest left)
    (enough : S.limit ≤ rest.length) : S.Moved took took' := by
  obtain ⟨_, _, later, later', whole, whole', ⟨vs, rfl, rfl, placed⟩, same, short⟩ := paired
  have tokens := congrArg List.length (Pairing.tokens behind)
  have size := congrArg List.length whole
  have size' := congrArg List.length whole'
  have later_size := congrArg List.length same
  simp only [List.length_append, List.length_map] at tokens size size' later_size
  have fits : took.length ≤ vs.length := by omega
  have cut : ∀ (o : Nat) (run rest more : List Lexeme), run ++ rest = vs.map (·.shift o) ++ more →
      run.length = took.length → run = (vs.take took.length).map (·.shift o) := by
    intro o run rest more whole even
    have front := congrArg (List.take run.length) whole
    rwa [List.take_left, even, List.take_append_of_le_length (by simpa using fits), ← List.map_take]
      at front
  exact ⟨vs.take took.length, cut _ _ _ _ whole rfl, cut _ _ _ _ whole' (by omega),
    fun v mem => placed v (List.mem_of_mem_take mem)⟩

private theorem follows_traced {α : Type} {m m' : Read σ α} [alike : Alike S.pairing R m m']
    (paired : S.pairing.pairs ts us) (related : R s s') :
    Follows S.pairing R (fun a b => b.1 = a.1 ∧ S.Moved a.2 b.2) (traced m) (traced m') ts us s s' where
  reads := by
    rintro ⟨a, took⟩ rest t read enough
    obtain ⟨run, rfl⟩ := reads_traced.mp read
    obtain ⟨_, left, t', run', rfl, behind, related'⟩ :=
      (alike.follows _ us s s' paired related).reads a rest t run enough
    obtain ⟨took', rfl⟩ := run'.suffix
    exact ⟨(a, took'), left, t', reads_traced.mpr ⟨run', rfl⟩,
      ⟨rfl, moved_of_pairs paired behind enough⟩, behind, related'⟩
  refuses := by
    intro e failed none
    unfold traced at failed ⊢
    split at failed
    · rename_i cause here
      cases failed
      obtain ⟨e', there, same⟩ := (alike.follows ts us s s' paired related).refuses e here none
      exact ⟨e', by rw [there], same⟩
    · cases failed

private theorem follows_taken {m m' : Read σ Unit} [alike : Alike S.pairing R m m']
    (paired : S.pairing.pairs ts us) (related : R s s') :
    Follows S.pairing R S.Moved (taken m) (taken m') ts us s s' :=
  (follows_traced paired related).bind fun _ _ _ _ _ _ moved paired related =>
    .still (reads_pure.mpr ⟨rfl, rfl, rfl⟩) (reads_pure.mpr ⟨rfl, rfl, rfl⟩) moved.2 paired related

/-- A step that goes on with the tokens taken. -/
theorem alike_taken {β : Type} {m m' : Read σ Unit} {f f' : List Lexeme → Read σ β}
    [Alike S.pairing R m m']
    (second : ∀ took took', S.Moved took took' → Alike S.pairing R (f took) (f' took')) :
    Alike S.pairing R (taken m >>= f) (taken m' >>= f') where
  follows _ _ _ _ paired related :=
    (follows_taken paired related).bind fun took took' rest left t t' moved =>
      (second took took' moved).follows rest left t t'

private theorem alike_restOfLine {β : Type} {f f' : List Lexeme → Read σ β} {behind : List Char}
    (offset : S.Offset n behind)
    (second : ∀ line line' k, S.Moved line line' → k ≤ byteLength S.text →
      lineEnd? S.src (byteLength S.front + n) = some (byteLength S.front + k) →
      lineEnd? S.src' (byteLength S.front' + n) = some (byteLength S.front' + k) →
      Alike S.pairing R (f line) (f' line')) :
    Alike S.pairing R (restOfLine S.src (byteLength S.front + n) >>= f)
      (restOfLine S.src' (byteLength S.front' + n) >>= f') where
  follows _ _ _ _ paired related :=
    (follows_restOfLine offset paired related).bind
      fun line line' rest left t t' ⟨moved, k, inside, stop, stop'⟩ =>
        (second line line' k moved inside stop stop').follows rest left t t'

/-- The text of the rest of a line. -/
theorem alike_lineText (offset : S.Offset n behind) :
    Alike S.pairing R (lineText S.src (byteLength S.front + n))
      (lineText S.src' (byteLength S.front' + n)) :=
  alike_restOfLine offset fun _ _ _ moved _ _ _ => moved.alike

/-! The first line of a function. -/

/-- Tokens that are picked while enough is left stand in the stretch. -/
theorem moved_first {t u : Lexeme} (paired : S.pairing.pairs (t :: ts) (u :: us))
    (enough : S.limit ≤ ts.length) : S.Moved [t] [u] := by
  obtain ⟨_, _, cut, -, behind⟩ := S.pairing.cons paired
  obtain ⟨rfl, rfl⟩ := List.cons.inj cut
  exact moved_of_pairs paired behind enough

instance alike_readWords (isLast : String → Bool) (numbered : Bool) :
    Alike S.pairing R (readWords S.src isLast numbered : Read σ Words)
      (readWords S.src' isLast numbered) := by
  unfold readWords
  refine .loop (W := fun a b => S.Moved [a.1] [b.1] ∧ b.2 = a.2) ?_ ?_ ?_ _
  · intro words t u ts us b paired picked enough
    obtain ⟨_, _, cut, same, -⟩ := S.pairing.cons paired
    obtain ⟨rfl, rfl⟩ := List.cons.inj cut
    rw [same]
    split at picked
    · rename_i word _
      split at picked
      · cases picked
      · rename_i inner
        cases picked
        exact ⟨(u, word), if_neg inner, moved_first paired enough, rfl⟩
    · cases picked
  · intro words t u ts us paired stop
    obtain ⟨_, _, cut, same, -⟩ := S.pairing.cons paired
    obtain ⟨rfl, rfl⟩ := List.cons.inj cut
    rw [same]
    split at stop
    · split at stop
      · rename_i last
        exact if_pos last
      · cases stop
    · rfl
  · rintro words ⟨t, text⟩ ⟨u, _⟩ ⟨first, rfl⟩
    refine alike_taken fun took took' moved => ?_
    have text := (first.cons moved).alike (R := R)
    unfold addWord
    cases Linkage.ofKeyword? _ <;> infer_instance

instance alike_readParam (f : Function) :
    Alike S.pairing R (readParam S.src f : Read σ Function) (readParam S.src' f) := by
  refine .bind inferInstance fun dots => ?_
  cases dots with
  | true =>
    simp only [if_true]
    infer_instance
  | false =>
    simp only [Bool.false_eq_true, if_false]
    refine .bind inferInstance fun ty => alike_taken fun attrs attrs' moved =>
      .bind moved.alike fun attrs => ?_
    refine .peek fun next next' same => ?_
    match next, next', same with
    | none, none, _ => infer_instance
    | some ⟨token, start, stop⟩, some ⟨token', start', stop'⟩, same =>
      obtain rfl : token = token' := (Option.some.inj same).symm
      cases token <;> infer_instance

instance alike_readSlots (f : Function) :
    Alike S.pairing R (readSlots S.src f : Read σ Function) (readSlots S.src' f) := by
  have params : ∀ f, Alike S.pairing R
      (whileNext (fun f t _ => if !f.variadic && t.token = .punct .comma then some () else none)
        (fun _ f => readParam S.src f) f : Read σ Function)
      (whileNext (fun f t _ => if !f.variadic && t.token = .punct .comma then some () else none)
        (fun _ f => readParam S.src' f) f) :=
    .loop_tokens (fun f t u _ _ same _ => by rw [same]) fun _ _ => inferInstance
  unfold readSlots
  infer_instance

instance alike_readSignature (words : Words) :
    Alike S.pairing R (readSignature S.src words : Read σ Function) (readSignature S.src' words) := by
  rw [readSignature_eq, readSignature_eq]
  infer_instance

instance alike_readHeader :
    Alike S.pairing R (readHeader S.src : Read σ Function) (readHeader S.src') := by
  refine .bind inferInstance fun words => .bind inferInstance fun next => ?_
  split <;> infer_instance

end Stretch

/-! The other entities. -/

/-- The same module, and bodies of the same tokens. -/
structure SameDraft (d d' : Draft) : Prop where
  module : d'.module = d.module
  bodies : List.Forall₂ (fun b b' => b'.1 = b.1 ∧ b'.2.map (·.token) = b.2.map (·.token)) d.bodies
    d'.bodies

section
variable {P : Pairing}

instance alike_enter {α : Type} (start start' : Nat)
    (edit : Edit Module EditError α) :
    Alike P SameDraft (enter start edit) (enter start' edit) := by
  refine .state fun d d' same => ?_
  rw [same.module]
  split
  · exact .bind (.update fun _ _ same => ⟨rfl, same.bodies⟩) fun _ => inferInstance
  · infer_instance
  · infer_instance

instance alike_alter (f : Module → Module) : Alike P SameDraft (alter f) (alter f) :=
  .update fun _ _ same => ⟨congrArg f same.module, same.bodies⟩

instance alike_readQuoted {σ : Type} {R : σ → σ → Prop} :
    Alike P R (readQuoted : Read σ String) readQuoted := by
  unfold readQuoted
  infer_instance

instance alike_readTarget : Alike P SameDraft readTarget readTarget := by
  refine .place fun start start' => .bind inferInstance fun property =>
    .bind inferInstance fun _ => .bind inferInstance fun text => ?_
  split <;> infer_instance

end

namespace Stretch
variable {S : Stretch} {σ : Type} {R : σ → σ → Prop}

private theorem offset_start {v : Lexeme} (placed : Placed S.text v) :
    ∃ behind, S.Offset v.start behind := by
  obtain ⟨piece, ⟨before, behind, same, start⟩, -, -⟩ := placed
  exact ⟨_, before, same, start⟩

private theorem offset_stop {v : Lexeme} (placed : Placed S.text v) :
    ∃ behind, S.Offset v.stop behind := by
  obtain ⟨piece, ⟨before, behind, same, start⟩, stop, -⟩ := placed
  exact ⟨behind, before ++ piece, by rw [same, List.append_assoc], by
    rw [byteLength_append, start, stop]⟩

private theorem slice_moved {n k : Nat} {behind : List Char} (offset : S.Offset n behind)
    (inside : k ≤ byteLength S.text) :
    slice? S.src' (byteLength S.front' + n) (byteLength S.front' + k) =
      slice? S.src (byteLength S.front + n) (byteLength S.front + k) := by
  obtain ⟨before, same, rfl⟩ := offset
  have short : k ≤ byteLength before + byteLength behind := by
    rwa [same, byteLength_append] at inside
  rw [src, src', same, slice?_within short, slice?_within short]

/-- A token of the stretch, in both sources. -/
theorem Moved.one {v : Lexeme} (placed : Placed S.text v) :
    S.Moved [v.shift (byteLength S.front)] [v.shift (byteLength S.front')] :=
  ⟨[v], rfl, rfl, List.forall_mem_singleton.mpr placed⟩

/-- The end of the line may be looked for behind it as well. -/
theorem present_restOfLine {β : Type} (src : List Char) (o : Nat) (f : Nat → Read σ β) : (do
      let stop ← present (lineEnd? src o)
      let _ ← restOfLine src o
      f stop) = (do
      let _ ← restOfLine src o
      let stop ← present (lineEnd? src o)
      f stop) := by
  unfold restOfLine
  cases lineEnd? src o with
  | none => rfl
  | some stop => simp only [present, pure_bind]

private theorem alike_readNode {v : Lexeme} (placed : Placed S.text v) :
    Alike S.pairing R (readNode S.src (v.shift (byteLength S.front)) : Read σ String)
      (readNode S.src' (v.shift (byteLength S.front'))) := by
  refine alike_taken fun took took' moved => ?_
  rcases ((Moved.one placed).cons moved).last with ⟨none, none'⟩ | ⟨w, placed, last, last'⟩
  · rw [none, none']
    exact .bind_outOfRange
  · rw [last, last']
    obtain ⟨behind, offset⟩ := offset_stop placed
    refine .given ?_
    simp only [present_restOfLine, Lexeme.shift]
    refine alike_restOfLine offset fun line line' k _ inside stop stop' => ?_
    rw [stop, stop']
    refine .given ?_
    rw [slice_moved offset inside]
    infer_instance

private theorem alike_readDeclaration {v : Lexeme} (placed : Placed S.text v) :
    Alike S.pairing SameDraft (readDeclaration S.src (v.shift (byteLength S.front)))
      (readDeclaration S.src' (v.shift (byteLength S.front'))) where
  follows ts us d d' paired related := by
    refine (follows_traced paired related).bind fun ⟨f, header⟩ ⟨f', header'⟩ rest left t t' same => ?_
    obtain ⟨rfl, moved⟩ := same
    refine (?_ : Alike _ _ _ _).follows rest left t t'
    rcases ((Moved.one placed).cons moved).last with ⟨none, none'⟩ | ⟨w, placed, last, last'⟩
    · simp only [none, none']
      infer_instance
    · simp only [last, last']
      obtain ⟨behind, offset⟩ := offset_stop placed
      exact .bind (alike_lineText offset) fun _ => inferInstance

private theorem alike_readGlobal {v : Lexeme} (placed : Placed S.text v) (name : String) :
    Alike S.pairing SameDraft (readGlobal S.src (v.shift (byteLength S.front)).start name)
      (readGlobal S.src' (v.shift (byteLength S.front')).start name) := by
  refine .bind inferInstance fun _ => .bind inferInstance fun words => .bind inferInstance fun last =>
    .bind inferInstance fun ty => .bind inferInstance fun initial => .bind ?_ fun align => ?_
  · refine .loop_tokens (fun _ t u _ _ same next => by rw [same, next]) (fun _ _ => inferInstance) _
  · refine .bind inferInstance fun comma => ?_
    cases comma with
    | true =>
      simp only [if_true]
      obtain ⟨behind, offset⟩ := offset_start placed
      exact .bind (alike_lineText offset) fun _ => inferInstance
    | false =>
      simp only [Bool.false_eq_true, if_false]
      infer_instance

/-- An entity other than a definition, of which the first token stands in the stretch. -/
theorem alike_readEntity {v : Lexeme} (placed : Placed S.text v) (other : v.token ≠ .word "define") :
    Alike S.pairing SameDraft (readEntity S.src (v.shift (byteLength S.front)))
      (readEntity S.src' (v.shift (byteLength S.front'))) := by
  obtain ⟨behind, offset⟩ := offset_start placed
  have line : ∀ f : String → Module → Module, Alike S.pairing SameDraft
      (do let line ← restOfLine S.src (v.shift (byteLength S.front)).start
          let text ← readSpan S.src (v.shift (byteLength S.front) :: line)
          alter (f text))
      (do let line ← restOfLine S.src' (v.shift (byteLength S.front')).start
          let text ← readSpan S.src' (v.shift (byteLength S.front') :: line)
          alter (f text)) := fun f => alike_restOfLine offset fun line line' _ moved _ _ _ =>
    .bind ((Moved.one placed).cons moved).alike fun _ => inferInstance
  unfold readEntity
  simp only [Lexeme.shift_token]
  split
  · infer_instance
  · infer_instance
  · exact alike_readDeclaration placed
  · rename_i token
    exact absurd token other
  · exact line fun text m => m.addAttributeGroup text
  · infer_instance
  · exact alike_readGlobal placed _
  · exact line fun text m => m.addComdat text
  · exact .bind (alike_readNode placed) fun _ => inferInstance
  · exact .bind (alike_readNode placed) fun _ => inferInstance
  · infer_instance

end Stretch

end BlockTally.Listing
