import BlockTally.Proofs.Listing.Groups
import BlockTally.Proofs.Listing.Reread

/-! The tokens that a step inside a body passes over: single tokens that are no braces, and whole
groups, whose inside is not looked at. What types and constants are read is known as well. -/
namespace BlockTally.Listing
open Read

def isFlat : Token → Bool
  | .punct .lbrace | .punct .rbrace => false
  | _ => true

inductive Passed : List Lexeme → Prop
  | nil : Passed []
  | single {t : Lexeme} {ts : List Lexeme} (flat : isFlat t.token = true) (more : Passed ts) :
      Passed (t :: ts)
  | parens {t : Lexeme} {inside ts : List Lexeme} (opens : t.token = .punct .lparen)
      (ends : closes .lparen .rparen 1 (inside.map (·.token)) = true) (more : Passed ts) :
      Passed (t :: inside ++ ts)
  | braces {t : Lexeme} {inside ts : List Lexeme} (opens : t.token = .punct .lbrace)
      (ends : closes .lbrace .rbrace 1 (inside.map (·.token)) = true) (more : Passed ts) :
      Passed (t :: inside ++ ts)

theorem Passed.append {ts us : List Lexeme} (first : Passed ts) (second : Passed us) :
    Passed (ts ++ us) := by
  induction first with
  | nil => exact second
  | single flat _ ih => exact .single flat ih
  | parens opens ends _ ih =>
    rw [List.append_assoc]
    exact .parens opens ends ih
  | braces opens ends _ ih =>
    rw [List.append_assoc]
    exact .braces opens ends ih

/-- From `ts` to `rest`. -/
def Passes (ts rest : List Lexeme) : Prop := ∃ front, ts = front ++ rest ∧ Passed front

section
variable {σ α β : Type} {ts between rest : List Lexeme} {t : Lexeme} {s s' : σ} {a : α}

theorem Passes.refl (ts : List Lexeme) : Passes ts ts := ⟨[], rfl, .nil⟩

theorem Passes.trans (first : Passes ts between) (second : Passes between rest) :
    Passes ts rest := by
  obtain ⟨front, rfl, here⟩ := first
  obtain ⟨back, rfl, there⟩ := second
  exact ⟨front ++ back, (List.append_assoc ..).symm, here.append there⟩

theorem Passes.subset (passes : Passes ts rest) : rest ⊆ ts := by
  obtain ⟨front, rfl, -⟩ := passes
  exact List.subset_append_right front rest

theorem Passes.single {token : Token} (same : t.token = token) (flat : isFlat token = true) :
    Passes (t :: ts) ts := ⟨[t], rfl, .single (same ▸ flat) .nil⟩

/-- One more token. -/
theorem Passes.next {token : Token} (first : Passes ts (t :: rest)) (same : t.token = token)
    (flat : isFlat token = true) : Passes ts rest := first.trans (.single same flat)

theorem passes_tail {token : Token} (next : ts.head?.map Lexeme.token = some token)
    (flat : isFlat token = true) : Passes ts ts.tail := by
  cases ts with
  | nil => cases next
  | cons t ts => exact .single (Option.some.inj next) flat

/-! Steps that leave the state as it is. -/

private theorem accept_passes {f : Token → Option α} {found : Option α}
    (flat : ∀ token a, f token = some a → isFlat token = true)
    (read : Reads (accept f) ts s found rest s') : Passes ts rest ∧ s' = s := by
  obtain ⟨hit, rfl, rfl⟩ := reads_accept.mp read
  cases found with
  | none => exact ⟨.refl _, rfl⟩
  | some a =>
    obtain ⟨token, next, known⟩ := Option.bind_eq_some_iff.mp hit.symm
    exact ⟨passes_tail next (flat _ _ known), rfl⟩

theorem demand_passes {what : Wanted} {f : Token → Option α}
    (flat : ∀ token a, f token = some a → isFlat token = true)
    (read : Reads (demand what f) ts s a rest s') : Passes ts rest ∧ s' = s := by
  obtain ⟨t, rfl, known, rfl⟩ := reads_demand.mp read
  exact ⟨.single rfl (flat _ _ known), rfl⟩

theorem expect_passes {token : Token} (flat : isFlat token = true)
    (read : Reads (expect token) ts s u rest s') : Passes ts rest ∧ s' = s := by
  obtain ⟨t, rfl, same, rfl⟩ := reads_expect.mp read
  exact ⟨.single same flat, rfl⟩

theorem eat_passes {token : Token} {found : Bool} (flat : isFlat token = true)
    (read : Reads (eat token) ts s found rest s') : Passes ts rest ∧ s' = s := by
  obtain ⟨hit, rfl, rfl⟩ := reads_eat.mp read
  cases found with
  | false => exact ⟨.refl _, rfl⟩
  | true => exact ⟨passes_tail (of_decide_eq_true hit.symm) flat, rfl⟩

theorem word_passes {what : Wanted} {text : String}
    (read : Reads (word what) ts s text rest s') : Passes ts rest ∧ s' = s := by
  obtain ⟨t, rfl, same, rfl⟩ := reads_word.mp read
  exact ⟨.single same rfl, rfl⟩

/-- A loop passes over what its rounds pass over. -/
theorem whileNext_passes {pick : α → Lexeme → List Lexeme → Option β} {body : β → α → Read σ α}
    {c : α} (flat : ∀ a t ts b, pick a t ts = some b → isFlat t.token = true)
    (once : ∀ a t ts s b c between s', pick a t ts = some b →
      Reads (body b a) ts s c between s' → Passes ts between ∧ s' = s)
    (read : Reads (whileNext pick body a) ts s c rest s') : Passes ts rest ∧ s' = s := by
  refine (reads_whileNext.mp read).preserves (P := fun _ left now => Passes ts left ∧ now = s) ?_
    ⟨.refl _, rfl⟩
  rintro a t between _ b c left s' picked ⟨before, rfl⟩ round
  obtain ⟨passes, rfl⟩ := once _ _ _ _ _ _ _ _ picked round
  exact ⟨(before.next rfl (flat _ _ _ _ picked)).trans passes, rfl⟩

theorem parens_passes (read : Reads (group .lparen .rparen) ts s u rest s') :
    Passes ts rest ∧ s' = s := by
  obtain ⟨t, inside, rfl, opens, ends, rfl⟩ := reads_group.mp read
  obtain ⟨front, rfl, closed⟩ := afterGroup_eq_some.mp ends
  refine ⟨⟨t :: front ++ [], by simp, .parens opens closed .nil⟩, rfl⟩

theorem braces_passes (read : Reads (group .lbrace .rbrace) ts s u rest s') :
    Passes ts rest ∧ s' = s := by
  obtain ⟨t, inside, rfl, opens, ends, rfl⟩ := reads_group.mp read
  obtain ⟨front, rfl, closed⟩ := afterGroup_eq_some.mp ends
  refine ⟨⟨t :: front ++ [], by simp, .braces opens closed .nil⟩, rfl⟩

private theorem optionalGroup_passes (read : Reads optionalGroup ts s u rest s') :
    Passes ts rest ∧ s' = s := by
  simp only [optionalGroup, reads_bind, reads_peekToken] at read
  obtain ⟨_, _, _, ⟨rfl, rfl, rfl⟩, read⟩ := read
  split at read
  · exact parens_passes read
  · obtain ⟨-, rfl, rfl⟩ := reads_pure.mp read
    exact ⟨.refl _, rfl⟩

theorem skipAttributes_passes (read : Reads skipAttributes ts s u rest s') :
    Passes ts rest ∧ s' = s := by
  refine whileNext_passes ?_ ?_ read
  · intro _ t _ b picked
    cases token : t.token with
    | attrRef => rfl
    | word text => rfl
    | _ => simp [token] at picked
  · intro _ _ ts s b _ rest s' _ round
    cases b with
    | none =>
      obtain ⟨-, rfl, rfl⟩ := reads_pure.mp round
      exact ⟨.refl _, rfl⟩
    | some text =>
      dsimp only at round
      split at round
      · obtain ⟨_, _, _, number, read⟩ := reads_bind.mp round
        obtain ⟨first, rfl⟩ := accept_passes (fun token _ known => by
          cases token with
          | int value => rfl
          | _ => cases known) number
        obtain ⟨second, rfl⟩ := optionalGroup_passes read
        exact ⟨first.trans second, rfl⟩
      · exact optionalGroup_passes round

theorem readWord32_passes {n : UInt32} (read : Reads readWord32 ts s n rest s') :
    Passes ts rest ∧ s' = s := by
  simp only [readWord32, reads_bind, reads_place] at read
  obtain ⟨_, _, _, ⟨rfl, rfl, rfl⟩, value, _, _, number, read⟩ := read
  obtain ⟨passes, rfl⟩ := demand_passes (fun token _ known => by
    cases token with
    | int value => rfl
    | _ => cases known) number
  split at read
  · obtain ⟨-, rfl, rfl⟩ := reads_pure.mp read
    exact ⟨passes, rfl⟩
  · exact absurd read reads_refuseAt

/-! Types and constants. -/

private theorem inRange_of_keyword {word : String} {ty : Ty}
    (known : Ty.ofKeyword? word = some ty) :
    ty.InRange := by
  unfold Ty.ofKeyword? at known
  split at known
  · cases known
    trivial
  split at known
  · cases known
    trivial
  split at known
  · obtain ⟨width, here, rfl⟩ := Option.map_eq_some_iff.mp known
    have fits := (Option.filter_eq_some_iff.mp here).2
    simpa [Ty.InRange] using fits
  · cases known

theorem readTy_passes {ty : Ty} (read : Reads readTy ts s ty rest s') :
    Passes ts rest ∧ s' = s ∧ ty.InRange := by
  simp only [readTy, reads_bind, reads_place, reads_peekToken] at read
  obtain ⟨_, _, _, ⟨rfl, rfl, rfl⟩, _, ts, _, ⟨rfl, rfl, rfl⟩, read⟩ := read
  split at read
  · rename_i text here
    split at read
    · exact absurd read reads_refuse
    · rename_i first known
      obtain ⟨_, _, _, word, stars⟩ := reads_bind.mp read
      obtain ⟨rfl, rfl⟩ := reads_skip.mp word
      have front : Passes ts ts.tail := passes_tail here rfl
      refine (reads_whileNext.mp stars).preserves
        (P := fun ty left now => Passes ts left ∧ now = _ ∧ ty.InRange) ?_
        ⟨front, rfl, inRange_of_keyword known⟩
      rintro a t more _ b c left s' picked ⟨before, rfl, inRange⟩ round
      have star : t.token = .punct .star := by
        by_contra other
        simp [other] at picked
      split at round
      · exact absurd round reads_refuseAt
      · obtain ⟨rfl, rfl, rfl⟩ := reads_pure.mp round
        exact ⟨before.next star rfl, rfl, trivial⟩
  · exact absurd read reads_refuse
  · exact absurd read reads_refuse
  · exact absurd read reads_refuse
  · exact absurd read reads_unexpected

/-- A constant that is read can be written at its type again. -/
theorem stable_of_constantOf? {ty : Ty} {token : Token} {c : Constant}
    (known : constantOf? ty token = some (.ok c)) : isFlat token = true ∧ c.StableAt ty := by
  cases token with
  | int value =>
    refine ⟨rfl, ?_⟩
    cases ty with
    | int width =>
      obtain rfl : Constant.int width value = c := by simpa [constantOf?] using known
      rfl
    | void => simp [constantOf?] at known
    | ptr => simp [constantOf?] at known
  | word text =>
    refine ⟨rfl, ?_⟩
    simp only [constantOf?, Bool.and_eq_true, decide_eq_true_eq] at known
    split at known
    · cases known
    split at known
    · rename_i bit
      cases known
      exact bit.2
    split at known
    · rename_i bit
      cases known
      exact bit.2
    split at known
    · rename_i null
      cases known
      have pointer : ty = .ptr := of_decide_eq_true null.2
      exact pointer
    split at known
    · cases known
      trivial
    split at known
    · cases known
      trivial
    split at known
    · cases ty with
      | int width =>
        cases known
        rfl
      | ptr =>
        cases known
        rfl
      | void => cases known
    · cases known
  | _ => cases known

theorem readConstant?_passes {ty : Ty} {found : Option Constant}
    (read : Reads (readConstant? ty) ts s found rest s') :
    Passes ts rest ∧ s' = s ∧ ∀ c ∈ found, c.StableAt ty := by
  simp only [readConstant?, reads_bind, reads_peekToken] at read
  obtain ⟨_, _, _, ⟨rfl, rfl, rfl⟩, read⟩ := read
  split at read
  · obtain ⟨rfl, rfl, rfl⟩ := reads_pure.mp read
    exact ⟨.refl _, rfl, by simp⟩
  · rename_i c here
    obtain ⟨token, next, known⟩ := Option.bind_eq_some_iff.mp here
    obtain ⟨flat, stable⟩ := stable_of_constantOf? known
    obtain ⟨_, _, _, skipped, done⟩ := reads_bind.mp read
    obtain ⟨rfl, rfl⟩ := reads_skip.mp skipped
    obtain ⟨rfl, rfl, rfl⟩ := reads_pure.mp done
    exact ⟨passes_tail next flat, rfl, by simpa using stable⟩
  · exact absurd read reads_refuse

end

end BlockTally.Listing
