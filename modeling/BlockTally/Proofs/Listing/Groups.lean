import BlockTally.Listing.Phrase
import BlockTally.Proofs.Listing.Takes

/-! Groups in marks, and attributes with their arguments. Main statements: `afterGroup_eq_some`,
`takes_argument`, `takes_attributes`. -/
namespace BlockTally.Listing
open Read

/-- The tokens end the groups that are open, with the last of them. -/
def closes (opening closing : Punct) : Nat → List Token → Bool
  | 0, toks => toks.isEmpty
  | _ + 1, [] => false
  | depth + 1, t :: toks =>
    closes opening closing
      (if t = .punct opening then depth + 2 else if t = .punct closing then depth else depth + 1) toks

section
variable {opening closing : Punct}

theorem afterGroup_eq_some {depth : Nat} {ts rest : List Lexeme} :
    (afterGroup opening closing depth ts).map Subtype.val = some rest ↔
      ∃ inside, ts = inside ++ rest ∧
        closes opening closing depth (inside.map (·.token)) = true := by
  induction ts generalizing depth with
  | nil =>
    cases depth with
    | zero =>
      constructor
      · intro found
        obtain rfl : [] = rest := Option.some.inj found
        exact ⟨[], rfl, rfl⟩
      · rintro ⟨inside, whole, -⟩
        obtain ⟨-, rfl⟩ := List.append_eq_nil_iff.mp whole.symm
        rfl
    | succ depth =>
      constructor
      · nofun
      · rintro ⟨inside, whole, ends⟩
        obtain ⟨rfl, rfl⟩ := List.append_eq_nil_iff.mp whole.symm
        cases ends
  | cons t ts ih =>
    cases depth with
    | zero =>
      constructor
      · intro found
        obtain rfl : t :: ts = rest := Option.some.inj found
        exact ⟨[], rfl, rfl⟩
      · rintro ⟨inside, whole, ends⟩
        obtain rfl : inside = [] := by
          cases inside with
          | nil => rfl
          | cons => cases ends
        obtain rfl : t :: ts = rest := whole
        rfl
    | succ depth =>
      have step : (afterGroup opening closing (depth + 1) (t :: ts)).map Subtype.val =
          (afterGroup opening closing (if t.token = .punct opening then depth + 2
            else if t.token = .punct closing then depth else depth + 1) ts).map Subtype.val := by
        rw [afterGroup, Option.map_map]
        rfl
      rw [step, ih]
      constructor
      · rintro ⟨inside, rfl, ends⟩
        exact ⟨t :: inside, rfl, ends⟩
      · rintro ⟨inside, whole, ends⟩
        cases inside with
        | nil => cases ends
        | cons u inside =>
          obtain ⟨rfl, rfl⟩ := List.cons.inj whole
          exact ⟨inside, rfl, ends⟩

/-- Without marks inside a group ends with the first closing mark. -/
theorem closes_flat (apart : opening ≠ closing) {toks : List Token}
    (flat : ∀ t ∈ toks, t ≠ .punct opening ∧ t ≠ .punct closing) :
    closes opening closing 1 (toks ++ [.punct closing]) = true := by
  induction toks with
  | nil =>
    have other : ¬ (Token.punct closing = .punct opening) := by
      intro same
      exact apart (Token.punct.inj same).symm
    rw [List.nil_append, closes, if_neg other, if_pos rfl]
    rfl
  | cons t toks ih =>
    obtain ⟨not_opening, not_closing⟩ := flat t List.mem_cons_self
    rw [List.cons_append, closes, if_neg not_opening, if_neg not_closing]
    exact ih fun u mem => flat u (List.mem_cons_of_mem _ mem)

end

section
variable {σ : Type} {P : σ → Prop} {stop : List Token → Prop}

theorem takes_group {opening closing : Punct} {inside : List Token}
    (ends : closes opening closing 1 inside = true) :
    Takes (group opening closing : Read σ Unit) (.punct opening :: inside) stop P () P := by
  intro ts rest s same _ holds
  obtain ⟨l, more, rfl, opens, rfl⟩ := List.map_eq_cons_iff.mp same
  exact ⟨s, reads_group.mpr ⟨l, more ++ rest, rfl, opens, afterGroup_eq_some.mpr ⟨more, rfl, ends⟩, rfl⟩,
    holds⟩

/-! Arguments. -/

/-- What may follow an attribute as its argument: a number, where one is allowed, and a group. -/
def IsArgument (numbered : Prop) (toks : List Token) : Prop :=
  ∃ number group, toks = number ++ group ∧
    (number = [] ∨ numbered ∧ ∃ value, number = [.int value]) ∧
    (group = [] ∨ ∃ inside, group = .punct .lparen :: inside ∧
      closes .lparen .rparen 1 inside = true)

/-- What follows belongs to no argument. -/
abbrev NoArgument : List Token → Prop := fun r => ∀ t ∈ r.head?,
  t ≠ .punct .lparen ∧ ∀ value, t ≠ .int value

private theorem takes_optionalGroup {toks : List Token} (known : toks = [] ∨ ∃ inside,
      toks = .punct .lparen :: inside ∧ closes .lparen .rparen 1 inside = true) :
    Takes (optionalGroup : Read σ Unit) toks NoArgument P () P := by
  rcases known with rfl | ⟨inside, rfl, ends⟩
  · exact takes_not_peeked takes_pure fun r other paren => (other _ paren).1 rfl
  · exact takes_peeked (takes_group ends)

theorem takes_argument {numbered : Prop} [Decidable numbered] {toks : List Token}
    (known : IsArgument numbered toks) :
    Takes (do
        if numbered then
          let _ ← accept fun | .int _ => some () | _ => none
        optionalGroup : Read σ Unit) toks NoArgument P () P := by
  obtain ⟨number, behind, rfl, numbers, groups⟩ := known
  have group : Takes (optionalGroup : Read σ Unit) behind NoArgument P () P :=
    takes_optionalGroup groups
  rcases numbers with rfl | ⟨yes, value, rfl⟩
  · by_cases yes : numbered
    · rw [if_pos yes]
      have none_there : Takes (accept (fun | .int _ => some () | _ => none) : Read σ (Option Unit)) []
          (fun r => ∀ value, r.head? ≠ some (.int value)) P none P := by
        refine takes_unaccepted fun r other => ?_
        cases first : r.head? with
        | none => rfl
        | some t =>
          cases t with
          | int value => exact absurd first (other value)
          | _ => rfl
      refine none_there.bind group fun r other value first => ?_
      rcases groups with rfl | ⟨inside, rfl, -⟩
      · exact (other _ first).2 value rfl
      · cases first
    · rw [if_neg yes]
      exact group
  · rw [if_pos yes]
    exact (takes_accept (a := ()) rfl).next group

/-! Attributes. -/

/-- No attribute follows. -/
abbrev NoAttribute : List Token → Prop := fun r => ∀ t ∈ r.head?, t ≠ .attrRef ∧
  ∀ text, t = .word text → (Ty.ofKeyword? text).isSome ∨ isConstantWord text = true

private theorem unpicked_attribute {t : Lexeme} {ts : List Lexeme}
    (other : NoAttribute ((t :: ts).map (·.token))) :
    (match t.token with
      | .attrRef => some none
      | .word text =>
        if (Ty.ofKeyword? text).isNone && !isConstantWord text then some (some text) else none
      | _ => none) = none := by
  obtain ⟨no_group, no_word⟩ := other t.token rfl
  cases token : t.token with
  | attrRef => exact absurd token no_group
  | word text =>
    rcases no_word text token with ty | constant
    · simp [Option.isSome_iff_ne_none.mp ty]
    · simp [constant]
  | _ => rfl

theorem takes_noAttributes :
    Takes (skipAttributes : Read σ Unit) [] NoAttribute P () P :=
  takes_unlooped fun _ _ other => unpicked_attribute other

/-- An attribute group, or a word with its argument. -/
inductive Attribute where
  | group
  | word (text : String) (argument : List Token)

namespace Attribute

def first : Attribute → Token
  | group => .attrRef
  | word text _ => .word text

def behind : Attribute → List Token
  | group => []
  | word _ argument => argument

def picked : Attribute → Option String
  | group => none
  | word text _ => some text

/-- The reader takes the word for an attribute. -/
def Known : Attribute → Prop
  | group => True
  | word text argument =>
    Ty.ofKeyword? text = none ∧ isConstantWord text = false ∧ IsArgument (text = "align") argument

end Attribute

/-- The tokens of attributes one after the other. -/
def AreAttributes (toks : List Token) : Prop :=
  ∃ attrs : List Attribute, (∀ attr ∈ attrs, attr.Known) ∧
    toks = attrs.flatMap fun attr => attr.first :: attr.behind

theorem takes_attributes {toks : List Token} (known : AreAttributes toks) :
    Takes (skipAttributes : Read σ Unit) toks (fun r => NoArgument r ∧ NoAttribute r) P () P := by
  obtain ⟨attrs, each, rfl⟩ := known
  have unit : attrs.foldl (fun (_ : Unit) _ => ()) () = () := rfl
  rw [← unit]
  refine takes_loop Attribute.first Attribute.behind (fun attr _ => attr.picked) (fun _ _ => ())
    (fun _ _ => P) NoArgument ?_ ?_ ?_ ?_ ()
  · intro attr mem _ t ts more token _
    cases attr with
    | group => simp [token, Attribute.first, Attribute.picked]
    | word text argument =>
      obtain ⟨no_ty, no_constant, -⟩ := each _ mem
      simp [token, Attribute.first, Attribute.picked, no_ty, no_constant]
  · intro attr mem _ _ _ _
    cases attr with
    | group => exact takes_pure
    | word text argument => exact takes_argument (each _ mem).2.2
  · intro later r other t first
    cases later with
    | nil => exact other.1 t first
    | cons attr later =>
      obtain rfl : attr.first = t := Option.some.inj first
      cases attr <;> exact ⟨nofun, nofun⟩
  · exact fun _ _ _ other => unpicked_attribute other.2

end

end BlockTally.Listing
