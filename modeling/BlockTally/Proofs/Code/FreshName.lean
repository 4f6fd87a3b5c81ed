import BlockTally.Code.FreshName
import Mathlib.Data.List.Nodup
import Mathlib.Data.List.Perm.Subperm
import Mathlib.Data.Nat.Find

/-! The search for a fresh name. Only so many names are taken, so that one of the names with a number
is free; the search ends at the first of those. Main statement: `uniqueName?_chosen`. -/
namespace BlockTally

/-- The least number from `start` on whose name is not taken. -/
structure LeastFree (spell : Nat → String) (taken : List String) (start n : Nat) : Prop where
  from_start : start ≤ n
  free : spell n ∉ taken
  before : ∀ k, start ≤ k → k < n → spell k ∈ taken

section
variable {spell : Nat → String} {taken : List String} {start n : Nat}

private theorem from?_free (free : spell n ∉ taken) :
    NameSearch.from? ⟨taken.contains, spell⟩ n = some (spell n) := by
  rw [NameSearch.from?, if_neg]
  simpa using free

private theorem from?_taken (mem : spell n ∈ taken) :
    NameSearch.from? ⟨taken.contains, spell⟩ n = NameSearch.from? ⟨taken.contains, spell⟩ (n + 1) := by
  rw [NameSearch.from?, if_pos]
  simpa using mem

/-- The search comes to the least free number by its distance from there. -/
theorem LeastFree.found (least : LeastFree spell taken start n) :
    NameSearch.from? ⟨taken.contains, spell⟩ start = some (spell n) := by
  obtain ⟨distance, rfl⟩ := Nat.exists_eq_add_of_le least.from_start
  induction distance generalizing start with
  | zero => exact from?_free least.free
  | succ distance ih =>
    have same : start + 1 + distance = start + (distance + 1) := by omega
    rw [from?_taken (least.before start (Nat.le_refl _) (by omega)), ← same]
    refine ih ⟨by omega, same ▸ least.free, fun k behind before => ?_⟩
    exact least.before k (by omega) (by omega)

/-- Numbers that are all taken are no more than the taken names. -/
private theorem length_le_of_taken (inj : ∀ i j, spell i = spell j → i = j)
    (all : ∀ k, start ≤ k → k < n → spell k ∈ taken) : n ≤ start + taken.length := by
  have passed : ((List.range' start (n - start)).map spell).Nodup :=
    List.Nodup.map (fun i j => inj i j) (List.nodup_range' 1)
  have among : (List.range' start (n - start)).map spell ⊆ taken := by
    intro name mem
    obtain ⟨k, inside, rfl⟩ := List.mem_map.mp mem
    obtain ⟨from_start, behind⟩ := List.mem_range'_1.mp inside
    exact all k from_start (by omega)
  have size := (List.subperm_of_subset passed among).length_le
  rw [List.length_map, List.length_range'] at size
  omega

theorem LeastFree.le (least : LeastFree spell taken start n)
    (inj : ∀ i j, spell i = spell j → i = j) : n ≤ start + taken.length :=
  length_le_of_taken inj least.before

/-- One of the names with a number is free. -/
theorem exists_leastFree (inj : ∀ i j, spell i = spell j → i = j) (taken : List String)
    (start : Nat) : ∃ n, LeastFree spell taken start n := by
  have some_free : ∃ k, start ≤ k ∧ spell k ∉ taken := by
    by_contra none
    push Not at none
    have few := length_le_of_taken (n := start + taken.length + 1) inj fun k from_start _ =>
      none k from_start
    omega
  classical
  obtain ⟨from_start, free⟩ := Nat.find_spec some_free
  refine ⟨Nat.find some_free, from_start, free, fun k behind before => ?_⟩
  by_contra unused
  exact Nat.find_min some_free before ⟨behind, unused⟩

end

theorem toString_nat_injective (i j : Nat) (h : toString i = toString j) : i = j := by
  have digits : Nat.toDigits 10 i = Nat.toDigits 10 j := by
    have := congrArg String.toList h
    simpa [← Nat.toList_repr] using this
  simpa using congrArg (fun ds => Nat.ofDigitChars 10 ds 0) digits

private theorem numbered_injective (hint : String) (i j : Nat)
    (h : hint ++ toString i = hint ++ toString j) : i = j := by
  have chars := congrArg String.toList h
  simp only [String.toList_append, List.append_cancel_left_eq, String.toList_inj] at chars
  exact toString_nat_injective i j chars

/-- What a hint makes of the taken names: it is the name itself if it is free, or else takes the
least number from one on; no hint gives the least number from `count` on. -/
structure ChosenName (taken : List String) (count : Nat) (hint name : String) : Prop where
  itself : hint ≠ "" → hint ∉ taken → name = hint
  numbered : hint ≠ "" → hint ∈ taken → ∃ n, LeastFree (hint ++ toString ·) taken 1 n ∧
    n ≤ taken.length ∧ name = hint ++ toString n
  number : hint = "" → ∃ n, LeastFree toString taken count n ∧
    n ≤ count + taken.length ∧ name = toString n

section
variable {taken : List String} {count : Nat} {hint : String}

private theorem hint_isEmpty_eq_false (known : hint ≠ "") : hint.isEmpty = false := by
  rw [← Bool.not_eq_true, String.isEmpty_iff]
  exact known

private theorem uniqueName?_itself (known : hint ≠ "") (free : hint ∉ taken) (count : Nat) :
    uniqueName? taken.contains count hint = some hint := by
  have unused : taken.contains hint = false := by simpa using free
  rw [uniqueName?, hint_isEmpty_eq_false known, if_neg Bool.false_ne_true, unused,
    if_neg Bool.false_ne_true]

private theorem uniqueName?_numbered (known : hint ≠ "") (mem : hint ∈ taken) {n : Nat}
    (least : LeastFree (hint ++ toString ·) taken 1 n) (count : Nat) :
    uniqueName? taken.contains count hint = some (hint ++ toString n) := by
  have used : taken.contains hint = true := by simpa using mem
  rw [uniqueName?, hint_isEmpty_eq_false known, if_neg Bool.false_ne_true, if_pos used, least.found]

private theorem uniqueName?_number {n : Nat} (least : LeastFree toString taken count n) :
    uniqueName? taken.contains count "" = some (toString n) := by
  rw [uniqueName?, if_pos (by decide), least.found]

/-- The hint is taken as well, and it is none of the names with a number. -/
private theorem numbered_le {n : Nat} (mem : hint ∈ taken)
    (least : LeastFree (hint ++ toString ·) taken 1 n) : n ≤ taken.length := by
  have unlike : ∀ k : Nat, hint ++ toString k ≠ hint := by
    intro k same
    have chars := congrArg String.toList same
    simp at chars
  have others : LeastFree (hint ++ toString ·) (taken.erase hint) 1 n :=
    ⟨least.from_start, fun inside => least.free (List.mem_of_mem_erase inside),
      fun k from_one behind => (List.mem_erase_of_ne (unlike k)).mpr (least.before k from_one behind)⟩
  have bound := others.le (numbered_injective hint)
  have some := List.length_pos_of_mem mem
  rw [List.length_erase_of_mem mem] at bound
  omega

/-- The search for a name ends, and what it ends with is the name that the hint allows. -/
theorem uniqueName?_chosen (taken : List String) (count : Nat) (hint : String) :
    ∃ name, uniqueName? taken.contains count hint = some name ∧
      ChosenName taken count hint name := by
  by_cases known : hint = ""
  · subst known
    obtain ⟨n, least⟩ := exists_leastFree toString_nat_injective taken count
    exact ⟨_, uniqueName?_number least, fun given => absurd rfl given, fun given => absurd rfl given,
      fun _ => ⟨n, least, least.le toString_nat_injective, rfl⟩⟩
  by_cases mem : hint ∈ taken
  · obtain ⟨n, least⟩ := exists_leastFree (numbered_injective hint) taken 1
    exact ⟨_, uniqueName?_numbered known mem least count, fun _ free => absurd mem free,
      fun _ _ => ⟨n, least, numbered_le mem least, rfl⟩, fun none => absurd none known⟩
  · exact ⟨_, uniqueName?_itself known mem count, fun _ _ => rfl, fun _ taken => absurd taken mem,
      fun none => absurd none known⟩

private theorem freshName_chosen (taken : List String) (count : Nat) (hint : String) :
    ChosenName taken count hint (freshName taken count hint) := by
  obtain ⟨name, found, chosen⟩ := uniqueName?_chosen taken count hint
  rwa [freshName, found, Option.getD_some]

/-- The hint itself, or what a number adds to it. -/
theorem freshName_cases (taken : List String) (count : Nat) (hint : String) :
    freshName taken count hint = hint ∧ hint ≠ "" ∨
      ∃ n : Nat, freshName taken count hint = hint ++ toString n := by
  have chosen := freshName_chosen taken count hint
  by_cases known : hint = ""
  · obtain ⟨n, -, -, name⟩ := chosen.number known
    exact .inr ⟨n, by rw [name, known, String.empty_append]⟩
  by_cases mem : hint ∈ taken
  · obtain ⟨n, -, -, name⟩ := chosen.numbered known mem
    exact .inr ⟨n, name⟩
  · exact .inl ⟨chosen.itself known mem, known⟩

theorem freshName_not_mem (taken : List String) (count : Nat) (hint : String) :
    freshName taken count hint ∉ taken := by
  have chosen := freshName_chosen taken count hint
  by_cases known : hint = ""
  · obtain ⟨n, least, -, name⟩ := chosen.number known
    exact name ▸ least.free
  by_cases mem : hint ∈ taken
  · obtain ⟨n, least, -, name⟩ := chosen.numbered known mem
    exact name ▸ least.free
  · rwa [chosen.itself known mem]

theorem freshName_ne_empty (taken : List String) (count : Nat) (hint : String) :
    freshName taken count hint ≠ "" := by
  rcases freshName_cases taken count hint with ⟨same, known⟩ | ⟨n, same⟩
  · rwa [same]
  · rw [same]
    intro empty
    have digits := congrArg String.toList empty
    simp at digits

theorem freshName_free (known : hint ≠ "") (free : hint ∉ taken) (count : Nat) :
    freshName taken count hint = hint :=
  (freshName_chosen taken count hint).itself known free

/-- Without a hint the name is the least free number from the number of values on. -/
theorem freshName_least {n : Nat} (least : LeastFree toString taken count n) :
    freshName taken count "" = toString n := by
  rw [freshName, uniqueName?_number least, Option.getD_some]

theorem freshName_number (free : toString count ∉ taken) :
    freshName taken count "" = toString count :=
  freshName_least ⟨Nat.le_refl _, free, fun _ behind before => absurd behind (Nat.not_le.mpr before)⟩

end

end BlockTally
