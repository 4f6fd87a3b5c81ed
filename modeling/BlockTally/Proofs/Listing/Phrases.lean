import BlockTally.Listing.Phrase
import BlockTally.Proofs.Listing.Reread
import BlockTally.Proofs.Listing.Takes

/-! Reading the written phrases: types, constants and numbers. -/
namespace BlockTally

theorem Ty.ofKeyword?_text {ty : Ty} (ok : ty.InRange) : Ty.ofKeyword? ty.text = some ty := by
  cases ty with
  | void => rfl
  | ptr => rfl
  | int width =>
    obtain ⟨low, high⟩ := ok
    obtain ⟨d, ds, run⟩ := List.exists_cons_of_ne_nil
      (Nat.toDigits_ne_nil (n := width.toNat) (b := 10))
    have letters : (Ty.int width).text.toList = 'i' :: d :: ds := by
      rw [text, String.toList_append, Listing.toList_toString_nat, run]
      rfl
    have digit : d.isDigit = true := by
      refine Nat.isDigit_of_mem_toDigits (b := 10) (n := width.toNat) (by decide) (by decide) ?_
      rw [run]
      exact List.mem_cons_self
    have number : Text.word32? (d :: ds) = some width := by
      rw [← run, ← Listing.toList_toString_nat, Listing.word32?_toString]
    have no_plus : d ≠ '+' := by
      intro same
      rw [same] at digit
      exact absurd digit (by decide)
    have width_read : widthOf? (d :: ds) = some width := by
      unfold widthOf?
      split
      · next same => exact absurd (List.cons.inj same).1 no_plus
      · simp only [number, Option.filter_some]
        rw [if_pos (by simp [low, high])]
    have other : (Ty.int width).text ≠ "void" ∧ (Ty.int width).text ≠ "ptr" := by
      constructor
      · intro same
        have first := congrArg String.toList same
        rw [letters] at first
        exact absurd (List.cons.inj first).1 (by decide)
      · intro same
        have first := congrArg String.toList same
        rw [letters] at first
        exact absurd (List.cons.inj first).1 (by decide)
    rw [ofKeyword?, if_neg other.1, if_neg other.2, letters]
    simp only [width_read, Option.map_some]

namespace Listing
open Read

variable {σ : Type} {P : σ → Prop} {stop : List Token → Prop}

/-- No star follows, which would make a pointer of the type. -/
abbrev NoStar : List Token → Prop := fun r => r.head? ≠ some (.punct .star)

theorem takes_ty {ty : Ty} (ok : ty.InRange) :
    Takes (readTy : Read σ Ty) [.word ty.text] NoStar P ty P := by
  intro ts rest s same stop holds
  obtain ⟨l, rfl, word⟩ := List.map_eq_singleton_iff.mp same
  refine ⟨s, ?_, holds⟩
  have stays : ∀ t more, rest = t :: more → t.token ≠ .punct .star := by
    rintro t more rfl star
    exact stop (by simp [star])
  simp only [readTy, reads_bind, reads_place, reads_peekToken]
  refine ⟨_, _, _, ⟨rfl, rfl, rfl⟩, _, _, _, ⟨rfl, rfl, rfl⟩, ?_⟩
  simp only [List.singleton_append, List.head?_cons, Option.map_some, word, Ty.ofKeyword?_text ok,
    reads_bind, reads_skip, reads_whileNext]
  refine ⟨(), _, _, ⟨rfl, rfl⟩, .finish ?_⟩
  intro t more whole
  rw [if_neg (stays t more whole)]

private theorem constantOf?_token {c : Constant} {ty : Ty} (ok : c.ReadableAt ty) :
    constantOf? ty (constantToken c) = some (.ok (c.reread ty)) := by
  cases c with
  | int width value =>
    unfold Constant.ReadableAt at ok
    unfold constantToken Constant.reread
    simp only at ok ⊢
    by_cases bit : width = 1
    · rw [if_pos bit] at ok ⊢
      rw [if_pos bit, ok]
      by_cases zero : value = 0
      · simp only [zero, if_true]
        decide
      · simp only [zero, if_false]
        decide
    · rw [if_neg bit] at ok ⊢
      rw [if_neg bit]
      cases ty with
      | int w => rfl
      | void => cases ok
      | ptr => cases ok
  | null =>
    obtain rfl : ty = .ptr := ok
    decide
  | undef => cases ty <;> simp [constantToken, constantOf?, isConstantWord, Constant.reread]
  | poison => cases ty <;> simp [constantToken, constantOf?, isConstantWord, Constant.reread]

theorem takes_constant {c : Constant} {ty : Ty} (ok : c.ReadableAt ty) :
    Takes (readConstant? ty : Read σ (Option Constant)) [constantToken c] stop P
      (some (c.reread ty)) P := by
  refine takes_peekToken ?_
  simp only [Option.bind_some, constantOf?_token ok]
  exact takes_skip.next takes_pure

theorem takes_word32 (n : UInt32) :
    Takes (readWord32 : Read σ UInt32) [.int (Int64.ofNat n.toNat)] stop P n P := by
  intro ts rest s same _ holds
  obtain ⟨l, rfl, number⟩ := List.map_eq_singleton_iff.mp same
  have bound := n.toNat_lt
  have back : Text.word32OfInt? (Int64.ofNat n.toNat).toInt = some n := by
    rw [Int64.toInt_ofNat_of_lt (by omega), word32OfInt?_toNat]
  refine ⟨s, ?_, holds⟩
  simp only [readWord32, reads_bind, reads_place, reads_demand]
  refine ⟨_, _, _, ⟨rfl, rfl, rfl⟩, _, _, _, ⟨l, rfl, by rw [number], rfl⟩, ?_⟩
  simp only [back]
  exact reads_pure.mpr ⟨rfl, rfl, rfl⟩

end Listing

end BlockTally
