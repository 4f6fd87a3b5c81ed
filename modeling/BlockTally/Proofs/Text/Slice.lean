import BlockTally.Text.Offset

/-! Pieces of a text by their bytes: what stands between two pieces is the slice between their
lengths. -/
namespace BlockTally.Text

/-- The characters of a text are looked at one by one, not all the characters that there are. -/
instance (priority := high) decidableForallChar {p : Char → Prop} [DecidablePred p] (cs : List Char) :
    Decidable (∀ c ∈ cs, p c) := List.decidableBAll p cs

@[simp] theorem byteLength_nil : byteLength [] = 0 := rfl

@[simp] theorem byteLength_cons (c : Char) (cs : List Char) :
    byteLength (c :: cs) = c.utf8Size + byteLength cs := rfl

@[simp] theorem byteLength_append (a b : List Char) :
    byteLength (a ++ b) = byteLength a + byteLength b := by
  induction a with
  | nil => simp
  | cons c a ih => rw [List.cons_append, byteLength_cons, byteLength_cons, ih, Nat.add_assoc]

theorem byteLength_pos {cs : List Char} (some : cs ≠ []) : 0 < byteLength cs := by
  obtain ⟨c, rest, rfl⟩ := List.exists_cons_of_ne_nil some
  have size := c.utf8Size_pos
  rw [byteLength_cons]
  omega

/-- The slice of a text, for places that it has. -/
def slice (cs : List Char) (start stop : Nat) : String := (slice? cs start stop).getD ""

/-- The end of a line, for places that the text has. -/
def lineEnd (cs : List Char) (offset : Nat) : Nat := (lineEnd? cs offset).getD (byteLength cs)

@[simp] theorem dropBytes?_zero (cs : List Char) : dropBytes? 0 cs = some cs := by
  rw [dropBytes?]

@[simp] theorem takeBytes?_zero (cs : List Char) : takeBytes? 0 cs = some [] := by
  rw [takeBytes?]

private theorem exists_utf8Size_add (c : Char) (n : Nat) :
    ∃ k, c.utf8Size + n = k + 1 ∧ c.utf8Size ≤ k + 1 ∧ k + 1 - c.utf8Size = n := by
  have size := c.utf8Size_pos
  exact ⟨c.utf8Size + n - 1, by omega, by omega, by omega⟩

private theorem dropBytes?_cons (c : Char) (cs : List Char) (n : Nat) :
    dropBytes? (c.utf8Size + n) (c :: cs) = dropBytes? n cs := by
  obtain ⟨k, more, enough, less⟩ := exists_utf8Size_add c n
  rw [more, dropBytes?, if_pos enough, less]

private theorem takeBytes?_cons (c : Char) (cs : List Char) (n : Nat) :
    takeBytes? (c.utf8Size + n) (c :: cs) = (takeBytes? n cs).map (c :: ·) := by
  obtain ⟨k, more, enough, less⟩ := exists_utf8Size_add c n
  rw [more, takeBytes?, if_pos enough, less]

theorem dropBytes?_append (pre cs : List Char) :
    dropBytes? (byteLength pre) (pre ++ cs) = some cs := by
  induction pre with
  | nil => exact dropBytes?_zero cs
  | cons c pre ih => rw [byteLength_cons, List.cons_append, dropBytes?_cons, ih]

theorem takeBytes?_append (mid cs : List Char) :
    takeBytes? (byteLength mid) (mid ++ cs) = some mid := by
  induction mid with
  | nil => exact takeBytes?_zero cs
  | cons c mid ih =>
    rw [byteLength_cons, List.cons_append, takeBytes?_cons, ih, Option.map_some]

theorem slice?_append (pre mid post : List Char) :
    slice? (pre ++ (mid ++ post)) (byteLength pre) (byteLength pre + byteLength mid) =
      some (String.ofList mid) := by
  rw [slice?, if_pos (Nat.le_add_right _ _), Nat.add_sub_cancel_left, dropBytes?_append,
    Option.bind_some, takeBytes?_append, Option.map_some]

theorem slice_append (pre mid post : List Char) :
    slice (pre ++ (mid ++ post)) (byteLength pre) (byteLength pre + byteLength mid) =
      String.ofList mid := by
  rw [slice, slice?_append, Option.getD_some]

/-- How far the first line of a text reaches. -/
def firstLine (cs : List Char) : Nat := byteLength (cs.takeWhile (· != '\n'))

theorem firstLine_append {a : List Char} (flat : ∀ c ∈ a, c ≠ '\n') (b : List Char) :
    firstLine (a ++ b) = byteLength a + firstLine b := by
  rw [firstLine, List.takeWhile_append_of_pos (by simpa using flat), byteLength_append, firstLine]

theorem firstLine_flat {cs : List Char} (flat : ∀ c ∈ cs, c ≠ '\n') :
    firstLine cs = byteLength cs := by
  have line := firstLine_append flat []
  rw [List.append_nil] at line
  rw [line]
  rfl

theorem firstLine_le (cs : List Char) : firstLine cs ≤ byteLength cs := by
  have split := congrArg byteLength (List.takeWhile_append_dropWhile (p := (· != '\n')) (l := cs))
  rw [byteLength_append] at split
  rw [firstLine]
  omega

theorem lineEnd?_behind (pre cs : List Char) :
    lineEnd? (pre ++ cs) (byteLength pre) = some (byteLength pre + firstLine cs) := by
  rw [lineEnd?, dropBytes?_append, Option.map_some, firstLine]

theorem lineEnd_behind (pre cs : List Char) :
    lineEnd (pre ++ cs) (byteLength pre) = byteLength pre + firstLine cs := by
  rw [lineEnd, lineEnd?_behind, Option.getD_some]

/-- A line ends at its first line feed. -/
theorem lineEnd?_append (pre mid post : List Char) :
    lineEnd? (pre ++ (mid ++ '\n' :: post)) (byteLength pre) =
      some (byteLength pre + firstLine mid) := by
  have line : (mid ++ '\n' :: post).takeWhile (· != '\n') = mid.takeWhile (· != '\n') := by
    induction mid with
    | nil => rfl
    | cons c mid ih =>
      rw [List.cons_append, List.takeWhile_cons, List.takeWhile_cons, ih]
  rw [lineEnd?_behind, firstLine, line, firstLine]

theorem firstLine_broken {a : List Char} (broken : ¬ ∀ c ∈ a, c ≠ '\n') (b : List Char) :
    firstLine (a ++ b) = firstLine a := by
  have short : (a.takeWhile (· != '\n')).length ≠ a.length := by
    intro whole
    have all : (a.takeWhile (· != '\n')).all (· != '\n') = true := List.all_takeWhile
    rw [(List.takeWhile_prefix _).eq_of_length whole] at all
    exact broken fun c mem => by simpa using List.all_eq_true.mp all c mem
  rw [firstLine, firstLine, List.takeWhile_append, if_neg short]

/-- What stands in the first line of a longer text stands in the first line. -/
theorem lt_firstLine_of_append {a b : List Char} {n : Nat} (inside : n < byteLength a)
    (line : n < firstLine (a ++ b)) : n < firstLine a := by
  by_cases flat : ∀ c ∈ a, c ≠ '\n'
  · rwa [firstLine_flat flat]
  · rwa [firstLine_broken flat] at line

/-- A line that reaches a place is the line there. -/
theorem firstLine_reaches {a b : List Char} (reaches : byteLength a < firstLine (a ++ b)) :
    (∀ c ∈ a, c ≠ '\n') ∧ firstLine (a ++ b) = byteLength a + firstLine b := by
  by_cases flat : ∀ c ∈ a, c ≠ '\n'
  · exact ⟨flat, firstLine_append flat b⟩
  · rw [firstLine_broken flat] at reaches
    exact absurd reaches (Nat.not_lt.mpr (firstLine_le a))

end BlockTally.Text
