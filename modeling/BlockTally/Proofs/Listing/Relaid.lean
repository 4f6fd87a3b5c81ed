import BlockTally.Proofs.Listing.Extents
import BlockTally.Proofs.Listing.Moved
import BlockTally.Proofs.Listing.Told

/-! Texts that differ in the gaps inside bodies. Main statement: `parse_relaid`. -/
namespace BlockTally.Listing
open Read Text

/-- Two texts from a byte on, with the same tokens in the same spelling and the same gaps before them,
but for the gaps before tokens that are free. -/
inductive Relaid (free : List Lexeme → Prop) :
    Nat → List Char → List Lexeme → Nat → List Char → List Lexeme → Prop
  | ends {o o' : Nat} {tail : List Char} : Relaid free o tail [] o' tail []
  | next {o o' : Nat} {gap gap' piece cs cs' : List Char} {t u : Lexeme} {ts us : List Lexeme}
      (same : u.token = t.token) (place : t.start = o + byteLength gap)
      (place' : u.start = o' + byteLength gap') (size : t.stop = t.start + byteLength piece)
      (size' : u.stop = u.start + byteLength piece) (kept : gap' = gap ∨ free (t :: ts))
      (more : Relaid free t.stop cs ts u.stop cs' us) :
      Relaid free o (gap ++ (piece ++ cs)) (t :: ts) o' (gap' ++ (piece ++ cs')) (u :: us)

theorem Placed.behind {text : List Char} {v : Lexeme} (placed : Placed text v) (before : List Char) :
    Placed (before ++ text) (v.shift (byteLength before)) := by
  obtain ⟨piece, ⟨front, back, rfl, start⟩, stop, some⟩ := placed
  refine ⟨piece, ⟨before ++ front, back, by simp, ?_⟩, ?_, some⟩
  · rw [byteLength_append, start, Lexeme.shift]
  · rw [Lexeme.shift, stop, Nat.add_assoc]

private theorem map_shift_shift (n k : Nat) (vs : List Lexeme) :
    (vs.map (·.shift k)).map (·.shift n) = vs.map (·.shift (n + k)) := by
  rw [List.map_map]
  exact List.map_congr_left fun v _ => v.shift_shift n k

section
variable {free : List Lexeme → Prop} {o o' : Nat} {cs cs' : List Char} {ts us : List Lexeme}

theorem Relaid.tokens (relaid : Relaid free o cs ts o' cs' us) :
    us.map (·.token) = ts.map (·.token) := by
  induction relaid with
  | ends => rfl
  | next same _ _ _ _ _ _ ih => rw [List.map_cons, List.map_cons, same, ih]

/-- Before its tokens and behind them, a part of the texts is the same. -/
theorem Relaid.stretch {limit : Nat} (relaid : Relaid free o cs ts o' cs' us)
    (solid : ∀ t ∈ ts, t.start < t.stop)
    (fixed : ∀ w, w <:+ ts → w ≠ [] → limit ≤ w.length → ¬ free w) :
    ∃ (text back back' : List Char) (vs later later' : List Lexeme), cs = text ++ back ∧
      cs' = text ++ back' ∧ ts = vs.map (·.shift o) ++ later ∧ us = vs.map (·.shift o') ++ later' ∧
      later'.map (·.token) = later.map (·.token) ∧ later.length ≤ limit - 1 ∧
      (∀ v ∈ vs, Placed text v) ∧ (limit = 0 → back = [] ∧ back' = []) := by
  induction relaid with
  | @ends o o' tail =>
    exact ⟨tail, [], [], [], [], [], by simp, by simp, rfl, rfl, rfl, Nat.zero_le _,
      List.forall_mem_nil _, fun _ => ⟨rfl, rfl⟩⟩
  | @next o o' gap gap' piece cs cs' t u ts us same place place' size size' kept more ih =>
    by_cases enough : limit ≤ (t :: ts).length
    · obtain rfl : gap' = gap :=
        kept.resolve_right (fixed _ (List.suffix_refl _) (List.cons_ne_nil _ _) enough)
      obtain ⟨text, back, back', vs, later, later', rfl, rfl, rfl, rfl, tokens, short, placed, last⟩ :=
        ih (List.forall_mem_cons.mp solid).2
          fun w suffix => fixed w (suffix.trans (List.suffix_cons _ _))
      have solid := (List.forall_mem_cons.mp solid).1
      have some : piece ≠ [] := by
        rintro rfl
        rw [size, byteLength_nil] at solid
        omega
      have cut : ∀ (w : Lexeme) (p : Nat) (more : List Lexeme), w.token = t.token →
          w.start = p + byteLength gap' → w.stop = w.start + byteLength piece →
          w :: (vs.map (·.shift w.stop) ++ more) =
            ((⟨t.token, byteLength gap', byteLength gap' + byteLength piece⟩ : Lexeme) ::
              vs.map (·.shift (byteLength (gap' ++ piece)))).map (·.shift p) ++ more := by
        rintro ⟨token, start, stop⟩ p more same place size
        dsimp only at same place size
        subst same place size
        rw [List.map_cons, List.cons_append, map_shift_shift, byteLength_append, ← Nat.add_assoc]
        simp [Lexeme.shift, Nat.add_assoc]
      refine ⟨gap' ++ (piece ++ text), back, back', _, later, later', by simp, by simp,
        cut t o later rfl place size, cut u o' later' same place' size', tokens, short,
        List.forall_mem_cons.mpr ⟨?_, fun v mem => ?_⟩, last⟩
      · exact ⟨piece, ⟨gap', text, rfl, rfl⟩, rfl, some⟩
      · obtain ⟨w, here, rfl⟩ := List.mem_map.mp mem
        rw [← List.append_assoc]
        exact (placed w here).behind _
    · exact ⟨[], _, _, [], _, _, rfl, rfl, rfl, rfl, (Relaid.next same place place' size size' kept
        more).tokens, by omega, List.forall_mem_nil _, fun none => absurd (none ▸ Nat.zero_le _) enough⟩

/-- Behind any of its tokens, the two texts go on in the same way. -/
theorem Relaid.behind {a b : List Lexeme} (relaid : Relaid free o cs ts o' cs' us) (suffix : a <:+ ts)
    (suffix' : b <:+ us) (same : b.length = a.length) :
    ∃ before before' rest rest', cs = before ++ rest ∧ cs' = before' ++ rest' ∧
      Relaid free (o + byteLength before) rest a (o' + byteLength before') rest' b := by
  induction relaid with
  | @ends o o' tail =>
    obtain rfl := List.suffix_nil.mp suffix
    obtain rfl := List.suffix_nil.mp suffix'
    exact ⟨[], [], tail, tail, rfl, rfl, .ends⟩
  | @next o o' gap gap' piece cs cs' t u ts us token place place' size size' kept more ih =>
    have even := congrArg List.length more.tokens
    simp only [List.length_map] at even
    rcases List.suffix_cons_iff.mp suffix with rfl | inner
    · have whole : b = u :: us := suffix'.eq_of_length (by simp [same, even])
      subst whole
      exact ⟨[], [], _, _, rfl, rfl, .next token place place' size size' kept more⟩
    · have inner' : b <:+ us := by
        rcases List.suffix_cons_iff.mp suffix' with rfl | inner'
        · have short := inner.length_le
          simp only [List.length_cons] at same
          omega
        · exact inner'
      obtain ⟨before, before', rest, rest', rfl, rfl, later⟩ := ih inner inner'
      refine ⟨gap ++ (piece ++ before), gap' ++ (piece ++ before'), rest, rest', by simp, by simp, ?_⟩
      have start : o + byteLength (gap ++ (piece ++ before)) = t.stop + byteLength before := by
        rw [byteLength_append, byteLength_append]
        omega
      have start' : o' + byteLength (gap' ++ (piece ++ before')) = u.stop + byteLength before' := by
        rw [byteLength_append, byteLength_append]
        omega
      rw [start, start']
      exact later

end

/-- What is left of these tokens. -/
def Pairing.within (all all' : List Lexeme) : Pairing where
  pairs := fun ts us => ts <:+ all ∧ us <:+ all' ∧ us.map (·.token) = ts.map (·.token)
  limit := 0
  nil := fun ⟨_, _, same⟩ => List.map_eq_nil_iff.mp same
  cons := by
    rintro t ts us ⟨suffix, suffix', same⟩
    cases us with
    | nil => cases same
    | cons u us =>
      obtain ⟨token, same⟩ := List.cons.inj same
      exact ⟨u, us, rfl, token, (List.suffix_cons t ts).trans suffix,
        (List.suffix_cons u us).trans suffix', same⟩

section
variable {free : List Lexeme → Prop} {src src' : List Char} {all all' ts us : List Lexeme}
  {t u : Lexeme} {limit : Nat}

/-- Around a token, and as far as no gap is free, the texts share a stretch. -/
theorem Relaid.around (relaid : Relaid free 0 src all 0 src' all')
    (solid : ∀ t ∈ all, t.start < t.stop)
    (paired : (Pairing.within all all').pairs (t :: ts) (u :: us))
    (fixed : ∀ w, w <:+ ts → w ≠ [] → limit ≤ w.length → ¬ free w) :
    ∃ S : Stretch, S.src = src ∧ S.src' = src' ∧ S.limit = limit ∧ S.pairing.pairs ts us ∧
      ∃ v, Placed S.text v ∧ t = v.shift (byteLength S.front) ∧ u = v.shift (byteLength S.front') := by
  obtain ⟨suffix, suffix', same⟩ := paired
  have even := congrArg List.length same
  simp only [List.length_map] at even
  obtain ⟨before, before', rest, rest', rfl, rfl, here⟩ := relaid.behind suffix suffix' even
  rw [Nat.zero_add, Nat.zero_add] at here
  cases here with
  | @next _ _ gap gap' piece cs cs' _ _ _ _ token place place' size size' kept more =>
    have inside : ∀ t ∈ ts, t.start < t.stop := fun t mem =>
      solid t (suffix.subset (List.mem_cons_of_mem _ mem))
    have some : piece ≠ [] := by
      have solid := solid t (suffix.subset List.mem_cons_self)
      rintro rfl
      rw [size, byteLength_nil] at solid
      omega
    obtain ⟨text, back, back', vs, later, later', rfl, rfl, rfl, rfl, tokens, short, placed, ends⟩ :=
      more.stretch inside fixed
    have cut : ∀ (w : Lexeme) (front gap : List Char), w.start = byteLength front + byteLength gap →
        w.stop = w.start + byteLength piece → vs.map (·.shift w.stop) =
          (vs.map (·.shift (byteLength piece))).map (·.shift (byteLength (front ++ gap))) := by
      intro w front gap start stop
      rw [map_shift_shift, stop, start, byteLength_append]
    have first : ∀ (w : Lexeme) (front gap : List Char), w.token = t.token →
        w.start = byteLength front + byteLength gap → w.stop = w.start + byteLength piece →
        w = (⟨t.token, 0, byteLength piece⟩ : Lexeme).shift (byteLength (front ++ gap)) := by
      rintro ⟨kind, start, stop⟩ front gap same place size
      dsimp only at same place size
      rw [Lexeme.shift, byteLength_append, same, size, place]
      rfl
    refine ⟨⟨piece ++ text, before ++ gap, before' ++ gap', back, back', limit, ends⟩, by
      simp [Stretch.src], by simp [Stretch.src'], rfl, ⟨_, _, later, later', rfl, rfl,
        ⟨_, cut t before gap place size, cut u before' gap' place' size', fun v mem => ?_⟩, tokens,
        short⟩, ⟨t.token, 0, byteLength piece⟩, ⟨piece, ⟨[], text, rfl, rfl⟩, (Nat.zero_add _).symm,
        some⟩, first t before gap rfl place size, first u before' gap' token place' size'⟩
    obtain ⟨w, here, rfl⟩ := List.mem_map.mp mem
    exact (placed w here).behind piece

/-- What is read of the stretch is read within the texts. -/
theorem follows_within {σ α : Type} {R : σ → σ → Prop} {m m' : Read σ α} {s s' : σ}
    (relaid : Relaid free 0 src all 0 src' all') (solid : ∀ t ∈ all, t.start < t.stop)
    (paired : (Pairing.within all all').pairs (t :: ts) (u :: us)) (related : R s s')
    (alike : ∀ (S : Stretch) v, S.src = src → S.src' = src' → Placed S.text v →
      t = v.shift (byteLength S.front) → u = v.shift (byteLength S.front') → Alike S.pairing R m m')
    (reads : ∀ a rest now, Reads m ts s a rest now → ∀ w, w <:+ ts → w ≠ [] →
      rest.length ≤ w.length → ¬ free w)
    (refuses : ∀ e, m ts s = .error e → ∀ w, w <:+ ts → w ≠ [] → ¬ free w) :
    Follows (Pairing.within all all') R Eq m m' ts us s s' where
  reads := by
    intro a rest now read _
    obtain ⟨S, here, here', size, pairs, v, placed, first, first'⟩ :=
      relaid.around solid paired (reads a rest now read)
    obtain ⟨_, left, now', read', rfl, behind, related'⟩ :=
      ((alike S v here here' placed first first').follows ts us s s' pairs related).reads a rest now read
        (Nat.le_of_eq size)
    refine ⟨a, left, now', read', rfl, ⟨?_, ?_, Pairing.tokens behind⟩, related'⟩
    · exact read.suffix.trans ((List.suffix_cons _ _).trans paired.1)
    · exact read'.suffix.trans ((List.suffix_cons _ _).trans paired.2.1)
  refuses := by
    intro e failed _
    obtain ⟨S, here, here', size, pairs, v, placed, first, first'⟩ :=
      relaid.around solid paired fun w suffix some (_ : 0 ≤ w.length) => refuses e failed w suffix some
    exact ((alike S v here here' placed first first').follows ts us s s' pairs related).refuses e failed
      size

end

/-! Which gaps are inside bodies. -/

section
variable {σ α β γ : Type}

private theorem read_assoc (m : Read σ α) (f : α → Read σ β) (g : β → Read σ γ) :
    m >>= f >>= g = m >>= fun a => f a >>= g := by
  funext ts s
  simp only [bind]
  cases m ts s with
  | error e => rfl
  | ok r =>
    obtain ⟨a, ⟨rest, h⟩, s⟩ := r
    simp only
    cases f a rest s with
    | error e => rfl
    | ok r =>
      obtain ⟨b, ⟨rest, h⟩, s⟩ := r
      simp only
      cases g b rest s <;> rfl

private theorem read_given (a : α) (f : α → Read σ β) : pure a >>= f = f a := by
  funext ts s
  simp only [bind, pure]
  cases f a ts s <;> rfl

section
variable {pick : α → Lexeme → List Lexeme → Option β} {body : β → α → Read σ α} {a c c' : α}
  {ts rest rest' : List Lexeme} {s now now' : σ}

/-- A loop goes one way, so that of two places where it comes one is behind the other. -/
theorem SomeRounds.compare (first : SomeRounds pick body a ts s c rest now)
    (second : SomeRounds pick body a ts s c' rest' now') :
    SomeRounds pick body c rest now c' rest' now' ∨ SomeRounds pick body c' rest' now' c rest now := by
  induction first with
  | none => exact .inl second
  | round picked once more ih =>
    cases second with
    | none => exact .inr (.round picked once more)
    | round picked' once' more' =>
      obtain rfl := Option.some.inj (picked.symm.trans picked')
      obtain ⟨rfl, rfl, rfl⟩ := once.unique once'
      exact ih more'

end

end

/-- What stands before the opening brace of a definition. -/
def readOpening (src : List Char) : Read Draft Function := do
  let f ← readHeader src
  let trail ← readSpan src (← taken (skipWhile (·.token != .punct .lbrace)))
  return { f with attrs.trail := trail }

/-- From the opening brace of a definition on. -/
def readEnclosed (start : Nat) (f : Function) : Read Draft Unit := do
  if !(← eat (.punct .lbrace)) then refuseAt (some start) .noBody
  let body ← ahead
  closeGroup .lbrace .rbrace (some start) .unterminatedBody
  let id ← enter start (Register.addFunction f)
  update fun draft => { draft with bodies := draft.bodies ++ [(id, body)] }

private theorem readDefinition_eq (src : List Char) (start : Nat) :
    readDefinition src start = readOpening src >>= readEnclosed start := by
  unfold readOpening
  rw [read_assoc]
  simp only [read_assoc, read_given]
  rfl

/-- The rounds of the top level. -/
abbrev Comes (src : List Char) (ts : List Lexeme) (d : Draft) (left : List Lexeme) (now : Draft) : Prop :=
  SomeRounds (fun _ t _ => some t) (fun t _ => readEntity src t) () ts d () left now

/-- A definition, of which the first token is taken, has a body between matching braces. -/
structure Encloses (src : List Char) (left : List Lexeme) (d : Draft)
    (extent after : List Lexeme) : Prop where
  opens : ∃ f trail brace now, Reads (readHeader src) left d f (trail ++ brace :: (extent ++ after)) now ∧
    (∀ t ∈ trail, t.token ≠ .punct .lbrace) ∧ brace.token = .punct .lbrace
  ends : closes .lbrace .rbrace 1 (extent.map (·.token)) = true

/-- The tokens begin in a body, behind its opening brace and not behind its closing one. -/
def InBody (src : List Char) (ts : List Lexeme) (d : Draft) (w : List Lexeme) : Prop :=
  ∃ first left now inner behind after, Comes src ts d (first :: left) now ∧
    first.token = .word "define" ∧ Encloses src left now (inner ++ behind) after ∧ behind ≠ [] ∧
    w = behind ++ after

section
variable {src : List Char} {left extent after rest : List Lexeme} {d now : Draft}

theorem Encloses.opening (source : Source src left) (encloses : Encloses src left d extent after) :
    ∃ f brace now,
    Reads (readOpening src) left d f (brace :: (extent ++ after)) now ∧
      brace.token = .punct .lbrace := by
  obtain ⟨⟨f, trail, brace, now, read, inside, opens⟩, -⟩ := encloses
  have cut : (trail ++ brace :: (extent ++ after)).dropWhile (·.token != .punct .lbrace) =
      brace :: (extent ++ after) := by
    rw [List.dropWhile_append_of_pos (by simpa using inside), List.dropWhile_cons_of_neg (by simp [opens])]
  have text := Source.span? trail _ (source.suffix read.suffix)
  refine ⟨_, brace, now, reads_bind.mpr ⟨f, _, _, read, reads_bind.mpr ⟨trail, _, now,
    reads_taken.mpr ⟨reads_skipWhile.mpr ⟨cut.symm, rfl⟩, rfl⟩, reads_bind.mpr ⟨_, _, _,
    reads_readSpan.mpr ⟨text, rfl, rfl⟩, reads_pure.mpr ⟨rfl, rfl, rfl⟩⟩⟩⟩, opens⟩

/-- What a definition leaves is behind its body. -/
theorem Encloses.leaves (source : Source src left) (encloses : Encloses src left d extent after)
    {start : Nat} {u : Unit} (read : Reads (readDefinition src start) left d u rest now) : rest <:+ after := by
  obtain ⟨f, brace, between, opening, opens⟩ := encloses.opening source
  rw [readDefinition_eq] at read
  obtain ⟨g, middle, before, opening', enclosed⟩ := reads_bind.mp read
  obtain ⟨rfl, rfl, rfl⟩ := opening.unique opening'
  obtain ⟨found, _, _, eaten, enclosed⟩ := reads_bind.mp enclosed
  cases found with
  | false =>
    obtain ⟨_, _, _, refused, -⟩ := reads_bind.mp enclosed
    exact absurd refused reads_refuseAt
  | true =>
    obtain ⟨_, cut, -, rfl⟩ := reads_eaten eaten
    obtain ⟨-, rfl⟩ := List.cons.inj cut
    simp only [Bool.not_true, Bool.false_eq_true, if_false] at enclosed
    obtain ⟨body, whole, _, ahead, closing⟩ := reads_bind.mp enclosed
    obtain ⟨-, rfl, rfl⟩ := reads_ahead.mp ahead
    obtain ⟨_, behind, _, closed, entered⟩ := reads_bind.mp closing
    have ends : (afterGroup .lbrace .rbrace 1 (extent ++ after)).map Subtype.val = some after :=
      afterGroup_eq_some.mpr ⟨extent, rfl, encloses.ends⟩
    obtain rfl := Option.some.inj ((reads_closeGroup.mp closed).1.symm.trans ends)
    exact entered.suffix

theorem Encloses.inside (source : Source src left) (encloses : Encloses src left d extent after) :
    (extent ++ after).length < left.length := by
  obtain ⟨f, brace, now, read, -⟩ := encloses.opening source
  have size := read.suffix.length_le
  rwa [List.length_cons] at size

private theorem readEntity_define {first : Lexeme} (token : first.token = .word "define") :
    readEntity src first = readDefinition src first.start := by
  unfold readEntity
  simp only [token]

/-- From where the loop stands, the bodies are those of the definition that comes next or lie behind
the entity that does. -/
theorem InBody.ahead {ts w : List Lexeme} {first : Lexeme} (source : Source src ts)
    (inBody : InBody src ts d w) (here : Comes src ts d (first :: left) now) (suffix : w <:+ left) :
    (first.token = .word "define" ∧ ∃ extent after, Encloses src left now extent after ∧
      w.length ≤ (extent ++ after).length) ∨
    ∃ rest next, Reads (readEntity src first) left now () rest next ∧ w.length < rest.length := by
  obtain ⟨start, behind, before, inner, within, after, there, token, encloses, some, rfl⟩ := inBody
  have source : Source src behind := source.suffix ((List.suffix_cons start _).trans there.suffix)
  rcases here.compare there with onward | back
  · cases onward with
    | none => exact .inl ⟨token, inner ++ within, after, encloses, by simp⟩
    | @round _ _ _ _ _ _ rest _ _ next _ picked once more =>
      obtain rfl := Option.some.inj picked
      refine .inr ⟨rest, next, once, ?_⟩
      have inside := encloses.inside source
      have later := more.suffix.length_le
      simp only [List.length_append, List.length_cons] at inside later ⊢
      omega
  · cases back with
    | none => exact .inl ⟨token, inner ++ within, after, encloses, by simp⟩
    | @round _ _ _ _ _ _ rest _ _ next _ picked once more =>
      obtain rfl := Option.some.inj picked
      rw [readEntity_define token] at once
      have sizes := (more.suffix.trans (encloses.leaves source once)).length_le
      have short := suffix.length_le
      simp only [List.length_append, List.length_cons] at sizes short
      omega

end

/-! Two runs over texts of which only the gaps inside bodies differ. -/

section
variable {src src' : List Char} {all all' : List Lexeme} {d d' : Draft}

private theorem alike_readEnclosed {P : Pairing} (start start' : Nat) (f : Function) :
    Alike P SameDraft (readEnclosed start f) (readEnclosed start' f) := by
  have enclosed : Alike P SameDraft (do
      let body ← ahead
      closeGroup .lbrace .rbrace (some start) .unterminatedBody
      let id ← enter start (Register.addFunction f)
      update fun draft => { draft with bodies := draft.bodies ++ [(id, body)] }) (do
      let body ← ahead
      closeGroup .lbrace .rbrace (some start') .unterminatedBody
      let id ← enter start' (Register.addFunction f)
      update fun draft => { draft with bodies := draft.bodies ++ [(id, body)] }) := by
    refine .ahead fun ts us paired => .bind inferInstance fun _ => .bind inferInstance fun id => ?_
    refine .update fun _ _ same => ⟨same.module, List.rel_append same.bodies ?_⟩
    exact .cons ⟨rfl, Pairing.tokens paired⟩ .nil
  unfold readEnclosed
  infer_instance

theorem Stretch.alike_readOpening (S : Stretch) :
    Alike S.pairing SameDraft (readOpening S.src) (readOpening S.src') := by
  have passing : Alike S.pairing SameDraft (skipWhile (·.token != .punct .lbrace))
      (skipWhile (·.token != .punct .lbrace)) :=
    alike_skipWhile fun t u same => by rw [same]
  exact .bind inferInstance fun f => alike_taken fun trail trail' moved =>
    .bind moved.alike fun _ => inferInstance

/-- Entities are read alike wherever the loop comes to them. -/
theorem follows_readEntity {t u : Lexeme} {ts us : List Lexeme} {now now' : Draft}
    (source : Source src all) (relaid : Relaid (InBody src all d) 0 src all 0 src' all')
    (solid : ∀ t ∈ all, t.start < t.stop) (comes : Comes src all d (t :: ts) now)
    (paired : (Pairing.within all all').pairs (t :: ts) (u :: us)) (related : SameDraft now now') :
    Follows (Pairing.within all all') SameDraft Eq (readEntity src t) (readEntity src' u) ts us now
      now' := by
  have token : u.token = t.token := (List.cons.inj paired.2.2).1
  have behind : Source src ts := source.suffix ((List.suffix_cons t ts).trans comes.suffix)
  by_cases define : t.token = .word "define"
  · rw [readEntity_define define, readEntity_define (token.trans define), readDefinition_eq,
      readDefinition_eq]
    have opening : Follows (Pairing.within all all') SameDraft Eq (readOpening src) (readOpening src') ts
        us now now' := by
      refine follows_within relaid solid paired related ?_ ?_ ?_
      · rintro S v rfl rfl - - -
        exact S.alike_readOpening
      · intro f rest next read w suffix _ enough inBody
        rcases inBody.ahead source comes suffix with
          ⟨-, extent, after, encloses, short⟩ | ⟨rest', _, whole, short⟩
        · obtain ⟨g, brace, _, read', -⟩ := encloses.opening behind
          obtain ⟨-, rfl, -⟩ := read.unique read'
          rw [List.length_cons] at enough
          omega
        · rw [readEntity_define define, readDefinition_eq] at whole
          obtain ⟨g, between, _, read', enclosed⟩ := reads_bind.mp whole
          obtain ⟨-, rfl, -⟩ := read.unique read'
          have less := enclosed.suffix.length_le
          omega
      · intro e failed w suffix _ inBody
        rcases inBody.ahead source comes suffix with ⟨-, extent, after, encloses, -⟩ | ⟨rest', _, whole, -⟩
        · obtain ⟨g, brace, _, read, -⟩ := encloses.opening behind
          exact read.not_error failed
        · rw [readEntity_define define, readDefinition_eq] at whole
          obtain ⟨g, between, _, read, -⟩ := reads_bind.mp whole
          exact read.not_error failed
    exact opening.bind fun f _ rest left next next' same paired related =>
      same ▸ (alike_readEnclosed t.start u.start f).follows rest left next next' paired related
  · refine follows_within relaid solid paired related ?_ ?_ ?_
    · rintro S v rfl rfl placed rfl rfl
      exact S.alike_readEntity placed define
    · intro _ rest next read w suffix _ enough inBody
      rcases inBody.ahead source comes suffix with ⟨here, -⟩ | ⟨rest', _, whole, short⟩
      · exact define here
      · obtain ⟨-, rfl, -⟩ := read.unique whole
        omega
    · intro e failed w suffix _ inBody
      rcases inBody.ahead source comes suffix with ⟨here, -⟩ | ⟨rest', _, whole, -⟩
      · exact define here
      · exact whole.not_error failed

private theorem follows_readEntities (source : Source src all)
    (relaid : Relaid (InBody src all d) 0 src all 0 src' all')
    (solid : ∀ t ∈ all, t.start < t.stop) (related : SameDraft d d') :
    Follows (Pairing.within all all') SameDraft Eq (readEntities src) (readEntities src') all all' d
      d' := by
  have whole : (Pairing.within all all').pairs all all' :=
    ⟨List.suffix_refl _, List.suffix_refl _, relaid.tokens⟩
  refine .loop (W := fun _ _ => True) (fun _ _ u _ _ _ _ _ _ => ⟨u, rfl, trivial⟩)
    (fun _ _ _ _ _ _ none => by cases none) ?_ whole related
  rintro _ t u left us now now' _ _ comes ⟨⟩ ⟨⟩ - paired - related
  exact follows_readEntity source relaid solid comes paired related

end

/-- The same value, or failures of the same cause. -/
inductive Agree {α : Type} : Except (Failure Complaint) α → Except (Failure Complaint) α → Prop
  | ok (a : α) : Agree (.ok a) (.ok a)
  | error {e e' : Failure Complaint} (same : SameCause e e') : Agree (.error e) (.error e')

theorem Agree.bind {α β : Type} {x y : Except (Failure Complaint) α}
    {f g : α → Except (Failure Complaint) β} (first : Agree x y) (second : ∀ a, Agree (f a) (g a)) :
    Agree (x >>= f) (y >>= g) := by
  cases first with
  | ok a => exact second a
  | error same => exact .error same

private theorem agree_fillFunction (m : Module) {b b' : FuncId × List Lexeme}
    (same : b'.1 = b.1 ∧ b'.2.map (·.token) = b.2.map (·.token)) :
    Agree (fillFunction m b) (fillFunction m b') := by
  obtain ⟨id, body⟩ := b
  obtain ⟨id', body'⟩ := b'
  obtain ⟨rfl, tokens⟩ := same
  have found : Agree (Failure.present (m.function? id')) (Failure.present (m.function? id')) := by
    cases m.function? id' with
    | none => exact .error rfl
    | some f => exact .ok f
  rw [fillFunction_eq, fillFunction_eq]
  refine found.bind fun f => ?_
  have follows := (alike_readBody (P := .within body body') m).follows body body' { function := f }
    { function := f } ⟨List.suffix_refl _, List.suffix_refl _, tokens⟩ ⟨rfl, rfl⟩
  cases run : readBody m.symbol? body { function := f } with
  | error e =>
    obtain ⟨e', run', cause⟩ := follows.refuses e run rfl
    rw [run']
    exact .error cause
  | ok r =>
    obtain ⟨u, left, scope⟩ := r
    obtain ⟨_, left', scope', ⟨h, run'⟩, -, -, same⟩ :=
      follows.reads u left.val scope (reads_of_eq_ok run) (Nat.zero_le _)
    rw [run']
    have equal := same.function
    simp only [bind, Except.bind]
    rw [equal]
    exact .ok _

private theorem agree_fillFunctions {bodies bodies' : List (FuncId × List Lexeme)}
    (same : List.Forall₂ (fun b b' => b'.1 = b.1 ∧ b'.2.map (·.token) = b.2.map (·.token)) bodies
      bodies') (m : Module) : Agree (bodies.foldlM fillFunction m) (bodies'.foldlM fillFunction m) := by
  induction same generalizing m with
  | nil => exact .ok m
  | cons first _ ih =>
    rw [List.foldlM_cons, List.foldlM_cons]
    exact (agree_fillFunction m first).bind ih

/-- The same module, or the same complaint wherever it is made. -/
inductive SameOutcome :
    Except (Failure ReadError) Module → Except (Failure ReadError) Module → Prop
  | read (m : Module) : SameOutcome (.ok m) (.ok m)
  | malformed (position position' : Text.Position) (cause : Cause) :
      SameOutcome (.error (.refused (.malformed position cause)))
        (.error (.refused (.malformed position' cause)))
  | outOfRange : SameOutcome (.error .outOfRange) (.error .outOfRange)

theorem Agree.outcome {x y : Except (Failure Complaint) Module} (agree : Agree x y)
    (src src' : List Char) : SameOutcome (x.mapError (Failure.map (Complaint.told src)))
      (y.mapError (Failure.map (Complaint.told src'))) := by
  cases agree with
  | ok m => exact .read m
  | @error e e' same =>
    cases e with
    | outOfRange =>
      cases e' with
      | outOfRange => exact .outOfRange
      | refused => cases same
    | refused c =>
      cases e' with
      | outOfRange => cases same
      | refused c' =>
        obtain ⟨place, cause⟩ := c
        obtain ⟨place', cause'⟩ := c'
        obtain rfl : cause' = cause := Failure.refused.inj same
        exact .malformed _ _ _

/-- Gaps inside bodies do not matter: two texts of the same tokens that differ in nothing else are read
as the same module, or refused for the same cause, or both lead beyond a table. -/
theorem parse_relaid {name text text' : String} {ts us : List Lexeme}
    (lexed : lex text.toList = .ok ts) (lexed' : lex text'.toList = .ok us)
    (relaid : Relaid (InBody text.toList ts { module := { name } }) 0 text.toList ts 0 text'.toList us) :
    SameOutcome (parse name text) (parse name text') := by
  have solid : ∀ t ∈ ts, t.start < t.stop := by
    intro t mem
    obtain ⟨piece, -, stop, some⟩ := placed_of_lex lexed t mem
    have pos := byteLength_pos some
    omega
  have alike : SameDraft { module := { name } } { module := { name } } := ⟨rfl, .nil⟩
  have source : Source text.toList ts := ⟨[], lexFrom_eq_ok.mp lexed⟩
  have follows := follows_readEntities source relaid solid alike
  rw [parse_told, parse_told]
  simp only [lexed, lexed']
  refine Agree.outcome ?_ _ _
  unfold parseTokens readModule
  cases run : readEntities text.toList ts ({ module := { name } } : Draft) with
  | error e =>
    obtain ⟨e', run', cause⟩ := follows.refuses e run rfl
    rw [run']
    exact .error cause
  | ok r =>
    obtain ⟨u, left, d⟩ := r
    obtain ⟨_, left', d', ⟨h, run'⟩, -, -, same⟩ :=
      follows.reads u left.val d (reads_of_eq_ok run) (Nat.zero_le _)
    rw [run']
    simp only [bind, Except.bind]
    rw [same.module]
    exact agree_fillFunctions same.bodies d.module

/-- A body on one line. -/
def short : String := "define void @f() \x7b ret void \x7d"

/-- The same body over several lines, with a comment. -/
def long : String := "define void @f() \x7b\n ret ; end\n  void\n\x7d"

def shortTokens : List Lexeme :=
  [⟨.word "define", 0, 6⟩, ⟨.word "void", 7, 11⟩, ⟨.globalName "f", 12, 14⟩,
   ⟨.punct .lparen, 14, 15⟩, ⟨.punct .rparen, 15, 16⟩, ⟨.punct .lbrace, 17, 18⟩] ++
  [⟨.word "ret", 19, 22⟩, ⟨.word "void", 23, 27⟩, ⟨.punct .rbrace, 28, 29⟩]

def longTokens : List Lexeme :=
  [⟨.word "define", 0, 6⟩, ⟨.word "void", 7, 11⟩, ⟨.globalName "f", 12, 14⟩,
   ⟨.punct .lparen, 14, 15⟩, ⟨.punct .rparen, 15, 16⟩, ⟨.punct .lbrace, 17, 18⟩] ++
  [⟨.word "ret", 20, 23⟩, ⟨.word "void", 32, 36⟩, ⟨.punct .rbrace, 37, 38⟩]

private theorem inBody_short (inner behind : List Lexeme)
    (whole : inner ++ behind = shortTokens.drop 6)
    (some : behind ≠ []) : InBody short.toList shortTokens { module := { name := "m" } } behind := by
  have header : Reads (readHeader short.toList) (shortTokens.drop 1)
      ({ module := { name := "m" } } : Draft) crossedHead (shortTokens.drop 5)
      { module := { name := "m" } } := by
    have chars : short.toList = _ := String.toList_ofList
    rw [chars]
    exact ⟨⟨(shortTokens.drop 1).take 4, rfl⟩, by decide +kernel⟩
  have encloses : Encloses short.toList (shortTokens.drop 1) { module := { name := "m" } }
      (inner ++ behind) [] := by
    rw [whole]
    exact ⟨⟨crossedHead, [], ⟨.punct .lbrace, 17, 18⟩, _, header, List.forall_mem_nil _, rfl⟩,
      by decide⟩
  exact ⟨⟨.word "define", 0, 6⟩, shortTokens.drop 1, _, inner, behind, [], .none, rfl, encloses, some,
    (List.append_nil _).symm⟩

private theorem relaid_short :
    Relaid (InBody short.toList shortTokens { module := { name := "m" } })
      0 short.toList shortTokens 0 long.toList longTokens := by
  have cut : short.toList = [] ++ ("define".toList ++ ([' '] ++ ("void".toList ++ ([' '] ++
      ("@f".toList ++ ([] ++ (['('] ++ ([] ++ ([')'] ++ ([' '] ++ (['\x7b'] ++ ([' '] ++ ("ret".toList ++
      ([' '] ++ ("void".toList ++ ([' '] ++ (['\x7d'] ++ []))))))))))))))))) := by decide
  have cut' : long.toList = [] ++ ("define".toList ++ ([' '] ++ ("void".toList ++ ([' '] ++
      ("@f".toList ++ ([] ++ (['('] ++ ([] ++ ([')'] ++ ([' '] ++ (['\x7b'] ++ ("\n ".toList ++
      ("ret".toList ++ (" ; end\n  ".toList ++ ("void".toList ++
      (['\n'] ++ (['\x7d'] ++ []))))))))))))))))) := by decide
  have ret := inBody_short [] (shortTokens.drop 6) rfl (by decide)
  have void := inBody_short [⟨.word "ret", 19, 22⟩] (shortTokens.drop 7) rfl (by decide)
  have closing := inBody_short ((shortTokens.drop 6).take 2) (shortTokens.drop 8) rfl (by decide)
  generalize InBody short.toList shortTokens { module := { name := "m" } } = free at *
  rw [cut, cut']
  refine .next rfl rfl rfl rfl rfl (.inl rfl) ?_
  refine .next rfl rfl rfl rfl rfl (.inl rfl) ?_
  refine .next rfl rfl rfl rfl rfl (.inl rfl) ?_
  refine .next rfl rfl rfl rfl rfl (.inl rfl) ?_
  refine .next rfl rfl rfl rfl rfl (.inl rfl) ?_
  refine .next rfl rfl rfl rfl rfl (.inl rfl) ?_
  refine .next rfl rfl rfl rfl rfl (.inr ret) ?_
  refine .next rfl rfl rfl rfl rfl (.inr void) ?_
  exact .next rfl rfl rfl rfl rfl (.inr closing) .ends

theorem parse_relaid_short : lex short.toList = .ok shortTokens ∧ lex long.toList = .ok longTokens ∧
    Relaid (InBody short.toList shortTokens { module := { name := "m" } }) 0 short.toList shortTokens
      0 long.toList longTokens ∧
    SameOutcome (parse "m" short) (parse "m" long) := by
  have chars : short.toList = _ := String.toList_ofList
  have chars' : long.toList = _ := String.toList_ofList
  have lexed : lex short.toList = .ok shortTokens := by
    rw [chars]
    decide +kernel
  have lexed' : lex long.toList = .ok longTokens := by
    rw [chars']
    decide +kernel
  exact ⟨lexed, lexed', relaid_short, parse_relaid lexed lexed' relaid_short⟩

end BlockTally.Listing
