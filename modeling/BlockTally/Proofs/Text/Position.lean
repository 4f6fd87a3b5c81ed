import BlockTally.Proofs.Text.Slice

/-! Lines and columns. Each character moves the position on, and so does each byte, so that no two
places of a text have the same one. Main statements: `eq_of_position_eq`, `marks_position_iff`. -/
namespace BlockTally.Text

def Position.after (p : Position) (c : Char) : Position :=
  if c = '\n' then ⟨p.line + 1, 1⟩ else ⟨p.line, p.column + c.utf8Size⟩

/-- The position of a place that the text has, counted from character to character. -/
def position (cs : List Char) (offset : Nat) : Position :=
  ((takeBytes? offset cs).getD []).foldl Position.after ⟨1, 1⟩

/-- On an earlier line, or farther left on the same. -/
def Position.Before (p q : Position) : Prop :=
  p.line < q.line ∨ p.line = q.line ∧ p.column < q.column

section
variable {p q r : Position}

theorem Position.Before.trans (first : p.Before q) (second : q.Before r) : p.Before r := by
  unfold Position.Before at *
  omega

theorem Position.Before.ne (before : p.Before q) : p ≠ q := by
  rintro rfl
  unfold Position.Before at before
  omega

theorem Position.before_after (p : Position) (c : Char) : p.Before (p.after c) := by
  have size := c.utf8Size_pos
  unfold Position.after
  split
  · exact .inl (Nat.lt_succ_self p.line)
  · exact .inr ⟨rfl, Nat.lt_add_of_pos_right size⟩

theorem Position.before_foldl (p : Position) {cs : List Char} (some : cs ≠ []) :
    p.Before (cs.foldl Position.after p) := by
  induction cs generalizing p with
  | nil => exact absurd rfl some
  | cons c cs ih =>
    rw [List.foldl_cons]
    by_cases last : cs = []
    · rw [last]
      exact p.before_after c
    · exact (p.before_after c).trans (ih _ last)

end

section
variable {pre post pre' post' : List Char}

theorem position_behind (pre post : List Char) :
    position (pre ++ post) (byteLength pre) = pre.foldl Position.after ⟨1, 1⟩ := by
  rw [position, takeBytes?_append, Option.getD_some]

/-- Nothing can be added without moving the position. -/
theorem nil_of_foldl_append {p : Position} {mid : List Char}
    (still : (pre ++ mid).foldl Position.after p = pre.foldl Position.after p) : mid = [] := by
  rw [List.foldl_append] at still
  cases mid with
  | nil => rfl
  | cons c mid => exact absurd still.symm (Position.before_foldl _ (List.cons_ne_nil c mid)).ne

/-- What stands in front of a place is known from its position. -/
theorem eq_of_position_eq (same : pre ++ post = pre' ++ post')
    (position_eq : position (pre ++ post) (byteLength pre) =
      position (pre ++ post) (byteLength pre')) : pre = pre' := by
  rw [position_behind, same, position_behind] at position_eq
  rcases List.append_eq_append_iff.mp same with ⟨mid, rfl, -⟩ | ⟨mid, rfl, -⟩
  · rw [nil_of_foldl_append position_eq.symm, List.append_nil]
  · rw [nil_of_foldl_append position_eq, List.append_nil]

end

/-! Bytes. -/

/-- The bytes of a text. -/
def bytes (cs : List Char) : List UInt8 := cs.flatMap String.utf8EncodeChar

/-- The byte of a line break. -/
def lineFeed : UInt8 := 10

/-- The position behind these bytes. The line is one more than there are line breaks, and the column
one more than there are bytes behind the last of them. -/
def Position.behind (bs : List UInt8) : Position where
  line := 1 + bs.count lineFeed
  column := 1 + (bs.reverse.takeWhile (· != lineFeed)).length

section
variable {bs mid : List UInt8}

@[simp] theorem bytes_append (a b : List Char) : bytes (a ++ b) = bytes a ++ bytes b :=
  List.flatMap_append

@[simp] theorem length_bytes (cs : List Char) : (bytes cs).length = byteLength cs := by
  induction cs with
  | nil => rfl
  | cons c cs ih =>
    rw [bytes, List.flatMap_cons, List.length_append, String.length_utf8EncodeChar, byteLength_cons,
      ← bytes, ih]

private theorem toByteArray_eq_bytes (text : String) :
    text.toByteArray.data.toList = bytes text.toList := by
  have encoded := String.toByteArray_ofList (l := text.toList)
  rw [String.ofList_toList] at encoded
  rw [encoded, List.utf8Encode, List.toList_data_toByteArray, bytes]

/-- Only a line break has the byte of one. -/
theorem ne_lineFeed_of_mem {c : Char} (other : c ≠ '\n') :
    ∀ b ∈ String.utf8EncodeChar c, b ≠ lineFeed := by
  have code : c.val.toNat ≠ 10 := by
    intro same
    apply other
    apply Char.ext
    exact UInt32.toNat_inj.mp same
  intro b mem same
  have value : b.toNat = 10 := by rw [same]; rfl
  unfold String.utf8EncodeChar at mem
  dsimp only at mem
  split at mem
  · rw [List.mem_singleton.mp mem, UInt8.toNat_ofNat'] at value
    omega
  · -- Every byte of a longer code is 128 at least.
    split at mem
    · simp only [List.mem_cons, List.not_mem_nil, or_false] at mem
      rcases mem with rfl | rfl <;> (rw [UInt8.toNat_ofNat'] at value; omega)
    split at mem
    · simp only [List.mem_cons, List.not_mem_nil, or_false] at mem
      rcases mem with rfl | rfl | rfl <;> (rw [UInt8.toNat_ofNat'] at value; omega)
    · simp only [List.mem_cons, List.not_mem_nil, or_false] at mem
      rcases mem with rfl | rfl | rfl | rfl <;> (rw [UInt8.toNat_ofNat'] at value; omega)

theorem Position.behind_break (bs : List UInt8) :
    behind (bs ++ [lineFeed]) = ⟨(behind bs).line + 1, 1⟩ := by
  simp [behind, Nat.add_assoc]

theorem Position.behind_flat (flat : ∀ b ∈ mid, b ≠ lineFeed) (bs : List UInt8) :
    behind (bs ++ mid) = ⟨(behind bs).line, (behind bs).column + mid.length⟩ := by
  have unbroken : mid.count lineFeed = 0 := List.count_eq_zero.mpr fun mem => flat _ mem rfl
  have column : ((bs ++ mid).reverse.takeWhile (· != lineFeed)).length =
      mid.length + (bs.reverse.takeWhile (· != lineFeed)).length := by
    rw [List.reverse_append, List.takeWhile_append_of_pos (by simpa using flat), List.length_append,
      List.length_reverse]
  rw [behind, List.count_append, unbroken, column, behind, Nat.add_zero, Nat.add_assoc,
    Nat.add_comm mid.length]

/-- A character moves the position as its bytes do. -/
theorem Position.behind_char (bs : List UInt8) (c : Char) :
    behind (bs ++ String.utf8EncodeChar c) = (behind bs).after c := by
  by_cases newline : c = '\n'
  · subst newline
    exact behind_break bs
  · rw [behind_flat (ne_lineFeed_of_mem newline), String.length_utf8EncodeChar, after, if_neg newline]

private theorem foldl_after (bs : List UInt8) (cs : List Char) :
    cs.foldl Position.after (.behind bs) = .behind (bs ++ bytes cs) := by
  induction cs generalizing bs with
  | nil => rw [bytes, List.flatMap_nil, List.append_nil, List.foldl_nil]
  | cons c cs ih =>
    rw [List.foldl_cons, ← Position.behind_char, ih, List.append_assoc, bytes, bytes, List.flatMap_cons]

theorem Position.before_behind (bs : List UInt8) (some : mid ≠ []) :
    (behind bs).Before (behind (bs ++ mid)) := by
  have once : ∀ bs b, (behind bs).Before (behind (bs ++ [b])) := by
    intro bs b
    by_cases newline : b = lineFeed
    · subst newline
      rw [behind_break]
      exact .inl (Nat.lt_succ_self _)
    · rw [behind_flat (by simpa using newline)]
      exact .inr ⟨rfl, Nat.lt_succ_self _⟩
  induction mid generalizing bs with
  | nil => exact absurd rfl some
  | cons b mid ih =>
    rw [List.append_cons]
    by_cases last : mid = []
    · rw [last, List.append_nil]
      exact once bs b
    · exact (once bs b).trans (ih _ last)

theorem Position.behind_lt {n k : Nat} (less : n < k) (inside : k ≤ bs.length) :
    (behind (bs.take n)).Before (behind (bs.take k)) := by
  have split : bs.take k = bs.take n ++ (bs.drop n).take (k - n) := by
    rw [← List.take_add, Nat.add_sub_cancel' (Nat.le_of_lt less)]
  rw [split]
  apply before_behind
  intro none
  have size := congrArg List.length none
  rw [List.length_take, List.length_drop, List.length_nil] at size
  omega

theorem Position.behind_injective {n k : Nat} (inside : n ≤ bs.length) (inside' : k ≤ bs.length)
    (same : behind (bs.take n) = behind (bs.take k)) : n = k := by
  rcases Nat.lt_trichotomy n k with less | rfl | more
  · exact absurd same (behind_lt less inside').ne
  · rfl
  · exact absurd same.symm (behind_lt more inside).ne

private theorem position_eq_behind (pre post : List Char) :
    position (pre ++ post) (byteLength pre) =
    .behind ((bytes (pre ++ post)).take (byteLength pre)) := by
  rw [position_behind, bytes_append, ← length_bytes, List.take_left]
  exact foldl_after [] pre

/-- The position stands for a byte of the text, or for its end: one line more than there are line
breaks in front of it, and one column more than there are bytes between the last of them and it. -/
structure Position.Marks (p : Position) (text : String) (o : Nat) : Prop where
  inside : o ≤ text.utf8ByteSize
  line : p.line = 1 + (text.toByteArray.data.toList.take o).count lineFeed
  column : p.column =
    1 + ((text.toByteArray.data.toList.take o).reverse.takeWhile (· != lineFeed)).length

theorem byteLength_toList (text : String) : byteLength text.toList = text.utf8ByteSize := by
  rw [← length_bytes, ← toByteArray_eq_bytes]
  exact String.size_toByteArray

theorem Position.marks_iff_behind {text : String} {p : Position} {n : Nat} :
    p.Marks text n ↔ n ≤ (bytes text.toList).length ∧ p = .behind ((bytes text.toList).take n) := by
  rw [length_bytes, byteLength_toList, ← toByteArray_eq_bytes]
  constructor
  · rintro ⟨inside, line, column⟩
    refine ⟨inside, ?_⟩
    cases p
    rw [behind, ← line, ← column]
  · rintro ⟨inside, rfl⟩
    exact ⟨inside, rfl, rfl⟩

/-- The position of a place stands for that place only. -/
theorem marks_position_iff {text : String} {pre post : List Char} {n : Nat}
    (whole : text.toList = pre ++ post) :
    (position text.toList (byteLength pre)).Marks text n ↔ n = byteLength pre := by
  have inside : byteLength pre ≤ (bytes text.toList).length := by
    rw [length_bytes, whole, byteLength_append]
    exact Nat.le_add_right _ _
  have here := position_eq_behind pre post
  rw [← whole] at here
  rw [Position.marks_iff_behind, here]
  constructor
  · rintro ⟨le, same⟩
    exact Position.behind_injective le inside same.symm
  · rintro rfl
    exact ⟨inside, rfl⟩

end

end BlockTally.Text
