import BlockTally.Proofs.Text.Position
import Mathlib.Data.List.Induction

/-! The table of lines. It gives each place the position that counting from character to character
gives it. Main statements: `partitionPoint_eq`, `positionIn?_behind`. -/
namespace BlockTally.Text

section
variable {α : Type} {p : α → Bool} {xs : Array α} {k : Nat}

/-- Between `low` and `high` the entries that satisfy `p` end at `k`. -/
private theorem partitionPoint_go (front : ∀ i, (h : i < xs.size) → i < k → p xs[i] = true)
    (back : ∀ i, (h : i < xs.size) → k ≤ i → p xs[i] = false) (low high : Nat)
    (inside : high ≤ xs.size) (above : low ≤ k) (below : k ≤ high) :
    partitionPoint.go p xs low high inside = k := by
  fun_induction partitionPoint.go p xs low high inside with
  | case1 low high inside between within holds ih =>
    refine ih ?_ below
    by_contra behind
    rw [back _ within (by omega)] at holds
    exact absurd holds Bool.false_ne_true
  | case2 low high inside between within fails ih =>
    refine ih above ?_
    by_contra before
    exact fails (front _ within (by omega))
  | case3 low high inside met => omega

theorem partitionPoint_eq (le : k ≤ xs.size) (front : ∀ i, (h : i < xs.size) → i < k → p xs[i] = true)
    (back : ∀ i, (h : i < xs.size) → k ≤ i → p xs[i] = false) : partitionPoint p xs = k :=
  partitionPoint_go front back 0 xs.size (Nat.le_refl _) (Nat.zero_le _) le

private theorem partitionPoint_append {front back : List α} (holds : ∀ a ∈ front, p a = true)
    (fails : ∀ a ∈ back, p a = false) : partitionPoint p (front ++ back).toArray = front.length := by
  apply partitionPoint_eq
  · simp
  · intro i inside before
    have here : (front ++ back).toArray[i] = front[i] := by simp [List.getElem_append_left before]
    exact here ▸ holds _ (List.getElem_mem before)
  · intro i inside behind
    have within : i - front.length < back.length := by
      simp only [List.size_toArray, List.length_append] at inside
      omega
    have here : (front ++ back).toArray[i] = back[i - front.length] := by
      simp [List.getElem_append_right behind]
    exact here ▸ fails _ (List.getElem_mem within)

end

section
variable {pre post cs : List Char} {o : Nat}

private theorem lineStartsFrom_append (pre post : List Char) (o : Nat) :
    lineStartsFrom o (pre ++ post) =
    lineStartsFrom o pre ++ lineStartsFrom (o + byteLength pre) post := by
  induction pre generalizing o with
  | nil => rfl
  | cons c pre ih =>
    rw [List.cons_append, lineStartsFrom, lineStartsFrom, byteLength_cons, ih, ih]
    split
    · next newline => rw [newline, List.cons_append, ← Nat.add_assoc]; rfl
    · rw [Nat.add_assoc]

private theorem lt_of_mem_lineStartsFrom {n : Nat} (mem : n ∈ lineStartsFrom o cs) :
    o < n ∧ n ≤ o + byteLength cs := by
  induction cs generalizing o with
  | nil => cases mem
  | cons c cs ih =>
    have size := c.utf8Size_pos
    rw [lineStartsFrom] at mem
    rw [byteLength_cons]
    split at mem
    · rcases List.mem_cons.mp mem with rfl | behind
      · omega
      · have := ih behind
        omega
    · have := ih mem
      omega

/-- The last start of a line up to a place, and how many there are, make its position. -/
theorem foldl_after_eq (pre : List Char) : ∃ earlier start, 0 :: lineStartsFrom 0 pre =
      earlier ++ [start] ∧ start ≤ byteLength pre ∧
    pre.foldl Position.after ⟨1, 1⟩ = ⟨earlier.length + 1, byteLength pre - start + 1⟩ := by
  induction pre using List.reverseRecOn with
  | nil => exact ⟨[], 0, rfl, Nat.le_refl _, rfl⟩
  | append_singleton pre c ih =>
    obtain ⟨earlier, start, starts, before, position⟩ := ih
    rw [lineStartsFrom_append, Nat.zero_add, List.foldl_append, position, byteLength_append,
      ← List.cons_append, starts]
    by_cases newline : c = '\n'
    · subst newline
      have size : byteLength ['\n'] = 1 := rfl
      refine ⟨earlier ++ [start], byteLength pre + 1, rfl, Nat.le_refl _, ?_⟩
      rw [List.foldl_cons, List.foldl_nil, Position.after, if_pos rfl, size, Nat.sub_self,
        List.length_append, List.length_singleton]
    · refine ⟨earlier, start, ?_, by omega, ?_⟩
      · simp [lineStartsFrom, newline]
      · rw [List.foldl_cons, List.foldl_nil, Position.after, if_neg newline]
        simp only [byteLength_cons, byteLength_nil, Position.mk.injEq, true_and]
        omega

/-- The search in the table of lines gives each place its position. -/
theorem positionIn?_behind (pre post : List Char) :
    positionIn? (lineStarts (pre ++ post)) (byteLength pre) =
      some (position (pre ++ post) (byteLength pre)) := by
  obtain ⟨earlier, start, starts, before, position⟩ := foldl_after_eq pre
  have table : lineStarts (pre ++ post) =
      ((earlier ++ [start]) ++ lineStartsFrom (byteLength pre) post).toArray := by
    rw [lineStarts, lineStartsFrom_append, ← List.cons_append, starts, Nat.zero_add]
  have front : ∀ n ∈ earlier ++ [start], decide (n ≤ byteLength pre) = true := by
    intro n mem
    rw [← starts] at mem
    rcases List.mem_cons.mp mem with rfl | mem
    · exact decide_eq_true (Nat.zero_le _)
    · exact decide_eq_true (by have := lt_of_mem_lineStartsFrom mem; omega)
  have back : ∀ n ∈ lineStartsFrom (byteLength pre) post, decide (n ≤ byteLength pre) = false :=
    fun n mem => decide_eq_false (by have := lt_of_mem_lineStartsFrom mem; omega)
  have line := partitionPoint_append front back
  rw [List.length_append, List.length_singleton] at line
  have here : ((earlier ++ [start]) ++ lineStartsFrom (byteLength pre) post).toArray[earlier.length]? =
      some start := by simp
  rw [position_behind, position, positionIn?, table, line]
  simp only [here, bind, Option.bind, if_pos before]

end

end BlockTally.Text
