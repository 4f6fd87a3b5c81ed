import BlockTally.Proofs.Listing.Reads

/-! Steps that read a known run of tokens. What a step takes and what it makes of it is said of the
tokens alone, for every rest that may follow them; steps in sequence take their runs in sequence.
Main statements: `Takes.bind`, `takes_loop`. -/
namespace BlockTally.Listing
open Read

/-- From a state with `P` the step takes `toks` before any rest that `stop` allows, gets `a` from
them and leaves a state with `Q`. -/
def Takes {σ α : Type} (m : Read σ α) (toks : List Token) (stop : List Token → Prop) (P : σ → Prop)
    (a : α) (Q : σ → Prop) : Prop :=
  ∀ ts rest s, ts.map (·.token) = toks → stop (rest.map (·.token)) → P s →
    ∃ s', Reads m (ts ++ rest) s a rest s' ∧ Q s'

abbrev Anything : List Token → Prop := fun _ => True

section
variable {σ α β : Type} {m : Read σ α} {f : α → Read σ β} {a : α} {b : β}
variable {toks toks' : List Token} {stop stop' : List Token → Prop} {P Q R : σ → Prop}

theorem Takes.imp (takes : Takes m toks stop P a Q) (less : ∀ r, stop' r → stop r) :
    Takes m toks stop' P a Q := fun ts rest s same ok => takes ts rest s same (less _ ok)

theorem Takes.cast (takes : Takes m toks stop P a Q) (same : toks' = toks) :
    Takes m toks' stop P a Q := same ▸ takes

theorem takes_pure : Takes (pure a) [] stop P a P := by
  intro ts rest s same _ holds
  obtain rfl := List.map_eq_nil_iff.mp same
  exact ⟨s, reads_pure.mpr ⟨rfl, rfl, rfl⟩, holds⟩

theorem Takes.bind (first : Takes m toks stop P a Q) (second : Takes (f a) toks' stop' Q b R)
    (between : ∀ r, stop' r → stop (toks' ++ r)) : Takes (m >>= f) (toks ++ toks') stop' P b R := by
  intro ts rest s same ok holds
  obtain ⟨front, back, rfl, rfl, rfl⟩ := List.map_eq_append_iff.mp same
  have apart : stop ((back ++ rest).map (·.token)) := by
    rw [List.map_append]
    exact between _ ok
  obtain ⟨t, read, known⟩ := first front (back ++ rest) s rfl apart holds
  obtain ⟨s', read', known'⟩ := second back rest t rfl ok known
  rw [List.append_assoc]
  exact ⟨s', reads_bind.mpr ⟨a, _, t, read, read'⟩, known'⟩

/-- The first step may be followed by anything. -/
theorem Takes.next (first : Takes m toks Anything P a Q) (second : Takes (f a) toks' stop Q b R) :
    Takes (m >>= f) (toks ++ toks') stop P b R := first.bind second fun _ _ => trivial

/-- What is read behind a step that takes its run. -/
theorem Takes.behind (first : Takes m toks stop P a Q) {ts rest left : List Lexeme} {s s' : σ}
    (same : ts.map (·.token) = toks) (ok : stop (rest.map (·.token))) (holds : P s)
    (read : Reads (m >>= f) (ts ++ rest) s b left s') :
    ∃ t, Q t ∧ Reads (f a) rest t b left s' := by
  obtain ⟨t, taken, known⟩ := first ts rest s same ok holds
  exact ⟨t, known, taken.bind_iff.mp read⟩

theorem Takes.returns {h : α → β} (takes : Takes m toks stop P a Q) :
    Takes (m >>= fun x => pure (h x)) toks stop P (h a) Q := by
  have whole : Takes (m >>= fun x => pure (h x)) (toks ++ []) stop P (h a) Q :=
    takes.bind takes_pure fun _ => id
  rwa [List.append_nil] at whole

/-- A step that is decided by the next token. -/
theorem takes_peekToken {t : Token} {f : Option Token → Read σ β}
    (takes : Takes (f (some t)) (t :: toks) stop P b Q) :
    Takes (peekToken >>= f) (t :: toks) stop P b Q := by
  intro ts rest s same ok holds
  obtain ⟨s', read, known⟩ := takes ts rest s same ok holds
  refine ⟨s', reads_bind.mpr ⟨some t, ts ++ rest, s, reads_peekToken.mpr ⟨?_, rfl, rfl⟩, read⟩, known⟩
  obtain ⟨l, more, rfl, rfl, -⟩ := List.map_eq_cons_iff.mp same
  rfl

/-- A look ahead that does not matter. -/
theorem takes_looked {f : Option Token → Read σ β} (takes : ∀ t, Takes (f t) toks stop P b Q) :
    Takes (peekToken >>= f) toks stop P b Q := by
  intro ts rest s same ok holds
  obtain ⟨s', read, known⟩ := takes _ ts rest s same ok holds
  exact ⟨s', reads_bind.mpr ⟨_, ts ++ rest, s, reads_peekToken.mpr ⟨rfl, rfl, rfl⟩, read⟩, known⟩

theorem takes_peeked {t : Token} {yes no : Read σ α} (takes : Takes yes (t :: toks) stop P a Q) :
    Takes (do if (← peekToken) = some t then yes else no) (t :: toks) stop P a Q := by
  refine takes_peekToken ?_
  rwa [if_pos rfl]

theorem takes_not_peeked {t : Token} {yes no : Read σ α} (takes : Takes no toks stop P a Q)
    (other : ∀ r, stop r → (toks ++ r).head? ≠ some t) :
    Takes (do if (← peekToken) = some t then yes else no) toks stop P a Q := by
  intro ts rest s same ok holds
  obtain ⟨s', read, known⟩ := takes ts rest s same ok holds
  refine ⟨s', reads_bind.mpr ⟨_, ts ++ rest, s, reads_peekToken.mpr ⟨rfl, rfl, rfl⟩, ?_⟩, known⟩
  have apart := other _ ok
  rw [← same, ← List.map_append, List.head?_map] at apart
  rwa [if_neg apart]

theorem takes_skip {t : Token} : Takes (skip : Read σ Unit) [t] stop P () P := by
  intro ts rest s same _ holds
  obtain ⟨l, rfl, -⟩ := List.map_eq_singleton_iff.mp same
  exact ⟨s, reads_skip.mpr ⟨rfl, rfl⟩, holds⟩

theorem takes_demand {what : Wanted} {f : Token → Option α} {t : Token} (hit : f t = some a) :
    Takes (demand what f : Read σ α) [t] stop P a P := by
  intro ts rest s same _ holds
  obtain ⟨l, rfl, rfl⟩ := List.map_eq_singleton_iff.mp same
  exact ⟨s, reads_demand.mpr ⟨l, rfl, hit, rfl⟩, holds⟩

theorem takes_expect {t : Token} : Takes (expect t : Read σ Unit) [t] stop P () P :=
  takes_demand (if_pos rfl)

theorem takes_word {what : Wanted} {text : String} :
    Takes (word what : Read σ String) [.word text] stop P text P := takes_demand rfl

private theorem takes_eat {t : Token} : Takes (eat t : Read σ Bool) [t] stop P true P := by
  intro ts rest s same _ holds
  obtain ⟨l, rfl, rfl⟩ := List.map_eq_singleton_iff.mp same
  exact ⟨s, reads_eat.mpr ⟨by simp, by simp, rfl⟩, holds⟩

theorem takes_uneaten {t : Token} (other : ∀ r, stop r → r.head? ≠ some t) :
    Takes (eat t : Read σ Bool) [] stop P false P := by
  intro ts rest s same ok holds
  obtain rfl := List.map_eq_nil_iff.mp same
  refine ⟨s, reads_eat.mpr ⟨?_, rfl, rfl⟩, holds⟩
  have apart := other _ ok
  rw [List.head?_map] at apart
  simp [apart]

theorem takes_eaten {t : Token} {yes no : Read σ α} (takes : Takes yes toks stop P a Q) :
    Takes (do if ← eat t then yes else no) ([t] ++ toks) stop P a Q := by
  refine takes_eat.next ?_
  rwa [if_pos rfl]

theorem takes_not_eaten {t : Token} {yes no : Read σ α} (takes : Takes no toks stop P a Q)
    (other : ∀ r, stop r → (toks ++ r).head? ≠ some t) :
    Takes (do if ← eat t then yes else no) toks stop P a Q := by
  have uneaten : Takes (eat t : Read σ Bool) [] (fun r => r.head? ≠ some t) P false P :=
    takes_uneaten fun _ => id
  refine (uneaten.bind ?_ other).cast (List.nil_append _).symm
  rwa [if_neg Bool.false_ne_true]

theorem takes_unaccepted {f : Token → Option α} (other : ∀ r, stop r → r.head?.bind f = none) :
    Takes (accept f : Read σ (Option α)) [] stop P none P := by
  intro ts rest s same ok holds
  obtain rfl := List.map_eq_nil_iff.mp same
  refine ⟨s, reads_accept.mpr ⟨?_, rfl, rfl⟩, holds⟩
  have apart := other _ ok
  rw [List.head?_map] at apart
  exact apart.symm

theorem takes_accept {f : Token → Option α} {t : Token} (hit : f t = some a) :
    Takes (accept f : Read σ (Option α)) [t] stop P (some a) P := by
  intro ts rest s same _ holds
  obtain ⟨l, rfl, rfl⟩ := List.map_eq_singleton_iff.mp same
  exact ⟨s, reads_accept.mpr ⟨by simp [next?, hit], rfl, rfl⟩, holds⟩

/-- A loop that takes nothing. -/
theorem takes_unlooped {pick : α → Lexeme → List Lexeme → Option β} {body : β → α → Read σ α}
    (ends : ∀ t ts, stop ((t :: ts).map (·.token)) → pick a t ts = none) :
    Takes (whileNext pick body a) [] stop P a P := by
  intro ts rest s same ok holds
  obtain rfl := List.map_eq_nil_iff.mp same
  refine ⟨s, reads_whileNext.mpr (.finish ?_), holds⟩
  intro t more whole
  rw [List.nil_append] at whole
  rw [whole] at ok
  exact ends t more ok

/-- A loop that takes one item after another, each from its first token on. -/
theorem takes_loop {ι : Type} {pick : α → Lexeme → List Lexeme → Option β} {body : β → α → Read σ α}
    (start : ι → Token) (parts : ι → List Token) (picks : ι → Lexeme → β) (step : α → ι → α)
    (P : α → List ι → σ → Prop) (inner : List Token → Prop) {items : List ι}
    (picked : ∀ i ∈ items, ∀ a t ts more, t.token = start i → ts.map (·.token) = parts i ++ more →
      pick a t ts = some (picks i t))
    (once : ∀ i ∈ items, ∀ t, t.token = start i → ∀ a later,
      Takes (body (picks i t) a) (parts i) inner (P a (i :: later)) (step a i) (P (step a i) later))
    (between : ∀ (later : List ι) r, stop r →
      inner (later.flatMap (fun i => start i :: parts i) ++ r))
    (ends : ∀ a t ts, stop ((t :: ts).map (·.token)) → pick a t ts = none) (a : α) :
    Takes (whileNext pick body a) (items.flatMap fun i => start i :: parts i) stop (P a items)
      (items.foldl step a) (P (items.foldl step a) []) := by
  intro ts rest s same ok holds
  simp only [reads_whileNext]
  induction items generalizing a ts s with
  | nil =>
    obtain rfl := List.map_eq_nil_iff.mp same
    refine ⟨s, .finish ?_, holds⟩
    intro t more whole
    rw [List.nil_append] at whole
    rw [whole] at ok
    exact ends a t more ok
  | cons i items ih =>
    rw [List.flatMap_cons, List.cons_append] at same
    obtain ⟨t, tail, rfl, first, same⟩ := List.map_eq_cons_iff.mp same
    obtain ⟨front, back, rfl, here, there⟩ := List.map_eq_append_iff.mp same
    have apart : inner ((back ++ rest).map (·.token)) := by
      rw [List.map_append, there]
      exact between items _ ok
    obtain ⟨s₁, read, known⟩ := once i List.mem_cons_self t first a items front (back ++ rest) s
      here apart holds
    obtain ⟨s₂, rounds, known'⟩ := ih (fun j mem => picked j (List.mem_cons_of_mem _ mem))
      (fun j mem => once j (List.mem_cons_of_mem _ mem)) (step a i) back s₁ there known
    refine ⟨s₂, ?_, known'⟩
    rw [List.cons_append, List.append_assoc]
    refine .round (picked i List.mem_cons_self a t _ (back.map (·.token) ++ rest.map (·.token))
      first ?_) read rounds
    simp [here]

/-- A loop that collects what it reads behind commas. -/
theorem takes_list {ι : Type} {pick : List α → Lexeme → List Lexeme → Option Unit}
    {item : Read σ α} (parts : ι → List Token) (value : ι → α) (P : List ι → σ → Prop)
    {items : List ι}
    (picked : ∀ i ∈ items, ∀ a t ts more, t.token = .punct .comma →
      ts.map (·.token) = parts i ++ more → pick a t ts = some ())
    (once : ∀ i ∈ items, ∀ later, Takes item (parts i) Anything (P (i :: later)) (value i) (P later))
    (ends : ∀ a t ts, stop ((t :: ts).map (·.token)) → pick a t ts = none) (a : α) :
    Takes (whileNext pick (fun _ all => return all ++ [← item]) [a])
      (items.flatMap ([.punct .comma] ++ parts ·)) stop (P items) (a :: items.map value)
      (P []) := by
  have step : ∀ i ∈ items, ∀ all later, Takes (do return all ++ [← item]) (parts i) Anything
      (P (i :: later)) (all ++ [value i]) (P later) := by
    intro i mem all later
    exact ((once i mem later).next (f := fun x => pure (all ++ [x])) takes_pure).cast
      (List.append_nil _).symm
  have loop : Takes (whileNext pick (fun _ all => return all ++ [← item]) [a]) _ stop (P items) _
      (P []) :=
    takes_loop (fun _ => .punct .comma) parts (fun _ _ => ()) (fun all i => all ++ [value i])
      (fun _ => P) Anything picked (fun i mem _ _ => step i mem) (fun _ _ _ => trivial) ends [a]
  have collected : ∀ all : List α, items.foldl (fun all i => all ++ [value i]) all =
      all ++ items.map value := by
    intro all
    rw [List.foldl_append_eq_append, ← List.flatMap_def]
    exact congrArg (all ++ ·) (List.map_eq_flatMap).symm
  rw [collected] at loop
  exact loop

end

end BlockTally.Listing
