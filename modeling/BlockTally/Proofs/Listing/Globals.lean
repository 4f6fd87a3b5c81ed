import BlockTally.Proofs.Listing.Keeps

/-! Written globals. Main statement: `yields_global`. -/
namespace BlockTally.Listing
open Text Read

def isVariableWord (word : String) : Bool := word = "global" || word = "constant"

/-- Attachments stand on the line of their global, and do not begin as an alignment does. -/
structure KeptAttachments (g : Global) : Prop where
  raw : ∃ t more, Raw g.attachments (t :: more) ∧ t.token ≠ .word "align" ∧
    ∀ u ∈ t :: more, u.start < firstLine g.attachments.toList
  name : ∀ c ∈ g.name.toList, c ≠ '\n'
  qualifiers : ∀ c ∈ g.qualifiers.toList, c ≠ '\n'

/-- What the text of a global takes for granted. -/
structure GlobalReadable (g : Global) : Prop where
  name : Unquoted g.name
  ty : g.ty.InRange
  initial : ∀ c ∈ g.initial, c.ReadableAt g.ty
  qualifiers : KeptWords false isVariableWord g.qualifiers
  attachments : g.attachments ≠ "" → KeptAttachments g

section
variable {σ : Type} {P : σ → Prop}

/-- No constant of the type follows. -/
abbrev NoConstant (ty : Ty) : List Token → Prop := fun r => ∀ t ∈ r.head?, constantOf? ty t = none

def initialTokens (initial : Option Constant) : List Token := initial.toList.map constantToken

private theorem takes_initial {ty : Ty} {initial : Option Constant}
    (fits : ∀ c ∈ initial, c.ReadableAt ty) :
    Takes (readConstant? ty : Read σ (Option Constant)) (initialTokens initial) (NoConstant ty) P
      (initial.map (·.reread ty)) P := by
  cases initial with
  | some c => exact (takes_constant (fits c rfl)).imp fun _ _ => trivial
  | none =>
    intro ts rest s same other holds
    obtain rfl := List.map_eq_nil_iff.mp same
    refine ⟨s, ?_, holds⟩
    have no_constant : (rest.head?.map Lexeme.token).bind (constantOf? ty) = none := by
      rw [← List.head?_map]
      cases first : (rest.map (·.token)).head? with
      | none => rfl
      | some t => exact other t first
    simp only [readConstant?, reads_bind, reads_peekToken, List.nil_append]
    refine ⟨_, _, _, ⟨rfl, rfl, rfl⟩, ?_⟩
    rw [no_constant]
    exact reads_pure.mpr ⟨rfl, rfl, rfl⟩

/-- No alignment follows. -/
abbrev NoAlign : List Token → Prop := fun r =>
  ∀ more, r ≠ .punct .comma :: .word "align" :: more

def readAlign : Read σ (Option UInt32) :=
  whileNext
    (fun _ t ts =>
      if t.token = .punct .comma && ts.head?.map Lexeme.token = some (.word "align") then some ()
      else none)
    (fun _ _ => do
      skip
      return some (← readWord32))
    none

private theorem takes_align (align : Option UInt32) :
    Takes (readAlign : Read σ (Option UInt32)) (alignTokens align) NoAlign P align P := by
  have tokens : alignTokens align = align.toList.flatMap fun n =>
      Token.punct .comma :: ([.word "align"] ++ [.int (Int64.ofNat n.toNat)]) := by
    cases align <;> rfl
  have result : align.toList.foldl (fun (_ : Option UInt32) n => some n) none = align := by
    cases align <;> rfl
  rw [tokens]
  have loop : Takes (readAlign : Read σ (Option UInt32)) (align.toList.flatMap fun n =>
        .punct .comma :: ([.word "align"] ++ [.int (Int64.ofNat n.toNat)])) NoAlign P
      (align.toList.foldl (fun (_ : Option UInt32) n => some n) none) P := by
    refine takes_loop (fun _ => .punct .comma)
      (fun n : UInt32 => [.word "align"] ++ [.int (Int64.ofNat n.toNat)]) (fun _ _ => ())
      (fun _ n => some n) (fun _ _ => P) Anything ?_ ?_ (fun _ _ _ => trivial) ?_ none
    · intro n _ _ t ts more comma same
      have next : ts.head?.map Lexeme.token = some (.word "align") := by
        rw [← List.head?_map, same]
        rfl
      simp [comma, next]
    · exact fun n _ _ _ _ _ => takes_skip.next (takes_word32 n).returns
    · intro _ t ts other
      refine if_neg fun both => ?_
      simp only [Bool.and_eq_true, decide_eq_true_eq] at both
      obtain ⟨comma, next⟩ := both
      cases ts with
      | nil => cases next
      | cons u more =>
        refine other (more.map (·.token)) ?_
        rw [List.map_cons, List.map_cons, comma, Option.some.inj next]
  rwa [result] at loop

end

/-- The word before the type of a global. -/
def variableWord (g : Global) : String := if g.isConstant then "constant" else "global"

/-- The end of the text of a global, from that word on. -/
def variableTokens (g : Global) : List Token :=
  [.word (variableWord g)] ++ ([.word g.ty.text] ++ (initialTokens g.initial ++ alignTokens g.align))

def variableText (g : Global) : String :=
  (if g.isConstant then "constant " else "global ") ++ g.ty.text ++
    (match g.initial with | some c => " " ++ c.text | none => "") ++ alignText g.align

def globalLinkage (g : Global) : String :=
  if g.linkage = .external && g.initial.isNone then "external" else g.linkage.keyword

section
variable {src : List Char} {M : Module} {B : List (FuncId × List Lexeme) → Prop} {g : Global}

private theorem spells_variable (g : Global) : Spells Ends (variableText g) (variableTokens g) := by
  have word : Spells Anywhere (if g.isConstant then "constant " else "global ")
      [.word (variableWord g)] := by
    unfold variableWord
    cases g.isConstant with
    | true => exact @spells_keyword "constant" (by decide)
    | false => exact @spells_keyword "global" (by decide)
  have initial : Spells Ends (match g.initial with | some c => " " ++ c.text | none => "")
        (initialTokens g.initial) ∧
      Ends (match g.initial with | some c => " " ++ c.text | none => "").toList := by
    cases g.initial with
    | none => exact ⟨spells_empty, Ends.nil⟩
    | some c => exact ⟨spells_space.next (spells_constant c), ends_space⟩
  have front := (word.next (spells_ty g.ty)).ends initial.1 initial.2
  have all := front.ends (spells_align g.align) (ends_align g.align)
  simp only [List.append_assoc] at all
  exact all

/-- What remains of a global behind the words before it. -/
def readVariable : Read Draft (String × Ty × Option Constant × Option UInt32) := do
  let last ← word (.either "global" "constant")
  let ty ← readTy
  let initial ← readConstant? ty
  return (last, ty, initial, ← readAlign)

/-- What may follow the alignment of a global. -/
abbrev EndsVariable (ty : Ty) : List Token → Prop := fun r => NoStar r ∧ NoConstant ty r ∧ NoAlign r

private theorem takes_variable {P : Draft → Prop} (ok : GlobalReadable g) :
    Takes readVariable (variableTokens g) (EndsVariable g.ty) P
      (variableWord g, g.ty, g.initial.map (·.reread g.ty), g.align) P := by
  have align : Takes (do return (variableWord g, g.ty, g.initial.map (·.reread g.ty), ← readAlign))
      (alignTokens g.align) (EndsVariable g.ty) P
      (variableWord g, g.ty, g.initial.map (·.reread g.ty), g.align) P :=
    ((takes_align g.align).imp fun r ends => ends.2.2).returns
  refine takes_word.next ((takes_ty ok.ty).bind ((takes_initial ok.initial).bind align ?_) ?_)
  · intro r ends
    cases g.align with
    | none => exact ends.2.1
    | some n =>
      rintro t ⟨⟩
      rfl
  · intro r ends
    cases g.initial with
    | none =>
      cases g.align with
      | none => exact ends.1
      | some n => nofun
    | some c =>
      intro star
      have first : constantToken c = .punct .star := Option.some.inj star
      rcases constantToken_shape c with ⟨_, same⟩ | ⟨_, same⟩ <;> rw [same] at first <;> cases first

/-! Lines. -/

/-- The text holds no line break. -/
def Flat (text : String) : Prop := ∀ c ∈ text.toList, c ≠ '\n'

instance (text : String) : Decidable (Flat text) :=
  inferInstanceAs (Decidable (∀ c ∈ text.toList, c ≠ '\n'))

theorem Flat.append {a b : String} (first : Flat a) (second : Flat b) : Flat (a ++ b) := by
  intro c mem
  rw [String.toList_append] at mem
  exact (List.mem_append.mp mem).elim (first c) (second c)

private theorem flat_ty (ty : Ty) : Flat ty.text := by
  rintro _ mem rfl
  have word := isWord_text ty
  cases run : ty.text.toList with
  | nil =>
    rw [run] at mem
    cases mem
  | cons c cs =>
    rw [run] at word mem
    simp only [isWord, Bool.and_eq_true, List.all_eq_true] at word
    rcases List.mem_cons.mp mem with same | inside
    · rw [← same] at word
      exact absurd word.1 (by decide)
    · exact absurd (word.2 _ inside) (by decide)

private theorem flat_digits (n : Nat) : Flat (toString n) := by
  rintro _ mem rfl
  rw [toList_toString_nat] at mem
  exact absurd (Nat.isDigit_of_mem_toDigits (b := 10) (by decide) (by decide) mem) (by decide)

private theorem flat_int (value : Int) : Flat (toString value) := by
  rintro _ mem rfl
  rw [toList_toString_int] at mem
  have digits : '\n' ∉ Nat.toDigits 10 value.natAbs := by
    intro inside
    exact absurd (Nat.isDigit_of_mem_toDigits (b := 10) (by decide) (by decide) inside) (by decide)
  split at mem
  · rcases List.mem_cons.mp mem with sign | inside
    · exact absurd sign (by decide)
    · exact digits inside
  · exact digits mem

private theorem flat_constant (c : Constant) : Flat c.text := by
  cases c with
  | int width value =>
    by_cases bit : width = 1
    · subst bit
      unfold Constant.text
      by_cases zero : value = 0
      · simp only [zero, if_true]
        decide
      · simp only [zero, if_false]
        decide
    · rw [Constant.text_int bit]
      exact flat_int _
  | null => decide
  | undef => decide
  | poison => decide

private theorem flat_spelled {name : String} (flat : Flat name) : Flat (spelled name) := by
  unfold spelled
  split
  · exact flat
  · exact (Flat.append (by decide) flat).append (by decide)

private theorem flat_wordText {word : String} (flat : Flat word) : Flat (wordText word) := by
  unfold wordText
  split
  · decide
  · exact flat.append (by decide)

private theorem flat_variable (g : Global) : Flat (variableText g) := by
  have word : Flat (if g.isConstant then "constant " else "global ") := by
    split <;> decide
  have initial : Flat (match g.initial with | some c => " " ++ c.text | none => "") := by
    cases g.initial with
    | none => decide
    | some c => exact Flat.append (by decide) (flat_constant c)
  have align : Flat (alignText g.align) := by
    cases g.align with
    | none => decide
    | some n => exact Flat.append (by decide) (flat_digits _)
  exact ((word.append (flat_ty g.ty)).append initial).append align

/-- What stands between the name of a global and its attachments. -/
def globalBehind (g : Global) : String :=
  " = " ++ (wordText (globalLinkage g) ++ wordText g.qualifiers ++ variableText g)

def attachmentsText (g : Global) : String :=
  if g.attachments.isEmpty then "" else ", " ++ g.attachments

private theorem globalText_eq (g : Global) :
    globalText g = globalNameText g.name ++ globalBehind g ++ attachmentsText g := by
  unfold globalText globalBehind variableText globalLinkage attachmentsText
  cases g.initial <;> simp only [String.append_assoc]

/-- No line break stands before the attachments. -/
theorem flat_front (kept : KeptAttachments g) :
    Flat (globalNameText g.name ++ globalBehind g) := by
  have linkage : Flat (globalLinkage g) := by
    unfold globalLinkage
    split
    · decide
    · cases g.linkage <;> decide
  have name : Flat (globalNameText g.name) := Flat.append (by decide) (flat_spelled kept.name)
  have words := (flat_wordText linkage).append (flat_wordText kept.qualifiers)
  exact name.append (Flat.append (by decide) (words.append (flat_variable g)))

/-! The whole line. -/

/-- The words before a global and what its text says from the type on. -/
def readFront (src : List Char) :
    Read Draft (Words × String × Ty × Option Constant × Option UInt32) := do
  expect (.punct .equals)
  let words ← readWords src isVariableWord false
  return (words, ← readVariable)

/-- What is read of a global before its attachments. -/
structure FrontRead (g : Global) (r : Words × String × Ty × Option Constant × Option UInt32) :
    Prop where
  linkage : r.1.linkage = g.linkage
  qualifiers : " ".intercalate r.1.others = g.qualifiers
  behind : r.2 = (variableWord g, g.ty, g.initial.map (·.reread g.ty), g.align)

private theorem linkagePieces_known (g : Global) :
    ∀ p ∈ keywordPieces (globalLinkage g), p.Known false ∧ isVariableWord p.word = false := by
  intro p mem
  unfold keywordPieces at mem
  split at mem
  · cases mem
  · next some =>
    obtain rfl := List.mem_singleton.mp mem
    unfold globalLinkage at some ⊢
    split
    · exact ⟨keyword_known (by decide), by decide⟩
    · next other =>
      rw [if_neg other] at some
      cases linkage : g.linkage with
      | external =>
        rw [linkage] at some
        exact absurd rfl some
      | _ => exact ⟨keyword_known (by decide), by decide⟩

private theorem foldl_linkage (g : Global) :
    (keywordPieces (globalLinkage g)).foldl Piece.addTo {} = { linkage := g.linkage } := by
  unfold globalLinkage
  split
  · next both =>
    simp only [Bool.and_eq_true, decide_eq_true_eq] at both
    rw [both.1]
    rfl
  · cases g.linkage <;> rfl

private theorem variable_head {g : Global} {ts : List Lexeme} (tokens : Of (variableTokens g) ts)
    (rest : List Lexeme) : LastWord isVariableWord (ts ++ rest) := by
  refine ⟨variableWord g, ?_, ?_⟩
  · rw [List.map_append, tokens]
    rfl
  · unfold variableWord
    cases g.isConstant with
    | true => decide
    | false => decide

variable (src) in
/-- What stands before the attachments is described, and its reading known. -/
theorem front_pieces (ok : GlobalReadable g) : ∃ desc,
    Describes src Ends (globalBehind g) desc ∧
    ∀ {P : Draft → Prop}, Accepts (readFront src) desc
      (fun rest => EndsVariable g.ty (rest.map (·.token))) P fun r s => FrontRead g r ∧ P s := by
  obtain ⟨pieces, qualifiers, known⟩ := ok.qualifiers
  have all : ∀ p ∈ keywordPieces (globalLinkage g) ++ pieces,
      p.Known false ∧ isVariableWord p.word = false := by
    intro p mem
    rcases List.mem_append.mp mem with keyword | word
    · exact linkagePieces_known g p keyword
    · exact ⟨(known p word).1, (known p word).2.1⟩
  have some_text : ∀ text ∈ pieces.map (·.text), text ≠ "" := by
    intro text mem
    obtain ⟨p, inside, rfl⟩ := List.mem_map.mp mem
    exact (known p inside).1.text_ne
  have words : wordText (globalLinkage g) ++ wordText g.qualifiers =
      String.join ((keywordPieces (globalLinkage g) ++ pieces).map (·.text ++ " ")) := by
    rw [List.map_append, String.join_append, wordText_keyword, qualifiers,
      wordText_intercalate some_text, List.map_map]
    rfl
  have folded : (keywordPieces (globalLinkage g) ++ pieces).foldl Piece.addTo {} =
      { linkage := g.linkage, others := pieces.map (·.text) } := by
    rw [List.foldl_append, foldl_linkage, foldl_addTo fun p mem => (known p mem).2.2]
    rfl
  have equals : Spells Anywhere " = " [.punct .equals] :=
    (spells_space.next (spells_punct (by decide) (c := '=') rfl)).next spells_space
  refine ⟨Then (Of [.punct .equals]) (Then (Each (Piece.described src)
    (keywordPieces (globalLinkage g) ++ pieces)) (Of (variableTokens g))), ?_, ?_⟩
  · have each : Describes src Anywhere _ (Each (Piece.described src)
        (keywordPieces (globalLinkage g) ++ pieces)) := describes_pieces fun p mem => (all p mem).1
    have front := each.append (spells_variable g).describes fun _ _ => trivial
    rw [← words] at front
    exact equals.describes.append front fun _ _ => trivial
  · intro P
    have sign : Accepts (expect (.punct .equals) : Read Draft Unit) (Of [.punct .equals])
        (fun _ => True) P fun _ => P := by
      intro ts rest s tokens _ holds
      have takes : Takes (expect (.punct .equals) : Read Draft Unit) [.punct .equals] Anything P ()
          P := takes_expect
      obtain ⟨s', read, holds'⟩ := takes ts rest s tokens trivial holds
      exact ⟨(), s', read, holds'⟩
    refine sign.bind (fun _ => (accepts_words src all).bind (fun w => ?_) ?_) fun _ _ _ _ => trivial
    · rintro ts rest s tokens ends ⟨rfl, holds⟩
      obtain ⟨s', read, holds'⟩ := takes_variable ok ts rest s tokens ends holds
      rw [folded]
      refine ⟨({ linkage := g.linkage, others := pieces.map (·.text) }, _), s', ?_,
        ⟨rfl, qualifiers.symm, rfl⟩, holds'⟩
      simp only [reads_bind, reads_pure]
      exact ⟨_, _, _, read, rfl, rfl, rfl⟩
    · exact fun ts rest tokens _ => variable_head tokens rest

private theorem reads_global {start : Nat} {ts mid rest : List Lexeme} {d : Draft}
    {r : Words × String × Ty × Option Constant × Option UInt32}
    (front : Reads (readFront src) ts d r mid d) (same : FrontRead g r)
    (line : Reads (do if ← eat (.punct .comma) then lineText src start else pure "") mid d
      g.attachments rest d) (fresh : d.module.symbol? g.name = none) :
    Reads (readGlobal src start g.name) ts d () rest
      { d with module := { d.module with globals := d.module.globals ++ [g.reread] } } := by
  obtain ⟨words, last, ty, initial, align⟩ := r
  obtain ⟨linkage, qualifiers, behind⟩ := same
  cases behind
  unfold readFront readVariable at front
  unfold readGlobal
  simp only [reads_bind, reads_pure] at front line ⊢
  obtain ⟨_, ts₁, d₁, sign, _, ts₂, d₂, words_read, _, ts₃, d₃, behind, whole, rfl, rfl⟩ := front
  obtain ⟨_, ts₄, d₄, last_read, _, ts₅, d₅, ty_read, _, ts₆, d₆, initial_read, _, ts₇, d₇,
    align_read, parts, rfl, rfl⟩ := behind
  cases whole
  cases parts
  obtain ⟨found, ts₈, d₈, ate, line_read⟩ := line
  have constant : decide (variableWord g = "constant") = g.isConstant := by
    unfold variableWord
    cases g.isConstant <;> rfl
  have added : Register.addGlobal
      { name := g.name, ty := g.ty, linkage := words.linkage
        isConstant := decide (variableWord g = "constant")
        qualifiers := " ".intercalate words.others
        initial := g.initial.map (·.reread g.ty), align := g.align
        attachments := g.attachments } d.module =
      (.ok ⟨d.module.globals.length⟩,
        { d.module with globals := d.module.globals ++ [g.reread] }) := by
    refine Module.registerGlobal_eq_ok.mpr ?_
    rw [Module.addGlobal, if_neg (by simp [fresh]), linkage, qualifiers, constant]
    rfl
  have entered : Reads (enter start _) rest d _ rest _ := reads_enter added
  refine ⟨_, ts₁, d₁, sign, _, ts₂, d₂, words_read, _, ts₄, d₄, last_read, _, ts₅, d₅, ty_read, _,
    ts₆, d₆, initial_read, _, _, _, align_read, found, ts₈, d₈, ate, ?_⟩
  cases found with
  | true =>
    simp only [if_true, reads_bind, reads_pure] at line_read ⊢
    exact ⟨_, _, _, line_read, _, _, _, entered, trivial, rfl, rfl⟩
  | false =>
    simp only [Bool.false_eq_true, if_false, reads_bind, reads_pure] at line_read ⊢
    exact ⟨_, _, _, line_read, _, _, _, entered, trivial, rfl, rfl⟩

private theorem endsVariable_of_next {ty : Ty} {r : List Token} (next : NextEntity r) :
    EndsVariable ty r := by
  refine ⟨?_, ?_, ?_⟩
  · intro star
    exact absurd (next _ star) (by decide)
  · intro t first
    have starts := next t first
    cases t with
    | word text =>
      have plain : isConstantWord text = false := by
        rw [Bool.eq_false_iff]
        intro constant
        simp only [startsEntity, List.contains_iff_mem, isConstantWord] at starts constant
        simp only [List.mem_cons, List.not_mem_nil, or_false] at starts
        rcases starts with rfl | rfl | rfl | rfl | rfl <;> exact absurd constant (by decide)
      simp [constantOf?, plain]
    | int v => cases starts
    | _ => rfl
  · rintro more rfl
    exact absurd (next _ rfl) (by decide)

private theorem lexes_separator : Lexes Anywhere ", ".toList [⟨.punct .comma, 0, 1⟩] := by
  have sign : Lexes Anywhere [','] [⟨.punct .comma, 0, 1⟩] := lexes_punct (by decide) rfl
  have blank : Lexes Anywhere [' '] [] := lexes_gap (by decide)
  exact sign.append blank fun _ _ => trivial

private theorem spelling_globalName {name : String} (unquoted : Unquoted name) :
    Spelling (globalNameText name).toList (.globalName name) := by
  have spelling := Spelling.globalName (nameSpelling unquoted)
  rw [globalNameText, String.toList_append]
  exact spelling

private theorem ends_globalBehind (g : Global) (b : String) (post : List Char) :
    Ends ((globalBehind g ++ b).toList ++ post) := by
  rw [globalBehind, String.append_assoc, String.toList_append, List.append_assoc]
  exact ends_cons (by decide)

/-- A global without attachments ends with its alignment. -/
theorem yields_bare (ok : GlobalReadable g) (bare : g.attachments = "")
    (fresh : M.symbol? g.name = none) :
    Yields src (globalText g ++ "\n") (Drafted M B)
      (Drafted { M with globals := M.globals ++ [g.reread] } B) := by
  obtain ⟨desc, describes, accepts⟩ := front_pieces src ok
  have line : globalText g ++ "\n" = globalNameText g.name ++ (globalBehind g ++ "\n") := by
    rw [globalText_eq, attachmentsText, bare]
    simp [← String.toList_inj]
  have whole : Describes src Anywhere (globalBehind g ++ "\n") desc :=
    describes.trailing spells_break fun _ _ => ends_cons (by decide)
  rw [line]
  refine yields_described (spelling_globalName ok.name).lexes (ends_globalBehind g "\n") rfl whole ?_
  rintro o ts rest d - fits - next ⟨rfl, bodies⟩
  obtain ⟨r, t, front, same, alike⟩ :=
    accepts (P := fun s => s = d) ts rest d fits (endsVariable_of_next next) rfl
  subst alike
  have no_comma : rest.head?.map Lexeme.token ≠ some (.punct .comma) := by
    rw [← List.head?_map]
    intro comma
    exact absurd (next _ comma) (by decide)
  have nothing : Reads (do if ← eat (.punct .comma) then lineText src o else pure "") rest t
      g.attachments rest t := by
    simp only [reads_bind, reads_eat]
    refine ⟨false, rest, t, ⟨by simp [no_comma], rfl, rfl⟩, ?_⟩
    exact reads_pure.mpr ⟨bare, rfl, rfl⟩
  exact ⟨_, reads_global front same nothing fresh, rfl, bodies⟩

/-- Behind a comma the attachments are read up to the end of the line. -/
theorem reads_attachments {σ : Type} {front text : String} {ts rest : List Lexeme} {o : Nat}
    (flat : Flat front) (onLine : ∀ u ∈ ts, u.start < firstLine text.toList)
    (place : At src o (front ++ ", " ++ text ++ "\n").toList)
    (behind : ∀ u ∈ rest, o + byteLength (front ++ ", " ++ text ++ "\n").toList ≤ u.start)
    (span : span? src (ts.map (·.shift (o + byteLength front.toList + 2))) = some text)
    {sign : Lexeme} (comma : sign.token = .punct .comma) (s : σ) :
    Reads (do if ← eat (.punct .comma) then lineText src o else pure "")
      (sign :: ts.map (·.shift (o + byteLength front.toList + 2)) ++ rest) s text rest s := by
  have flat_all : Flat (front ++ ", ") := flat.append (by decide)
  have size : byteLength (front ++ ", ").toList = byteLength front.toList + 2 := by
    rw [String.toList_append, byteLength_append]
    rfl
  rw [String.toList_append] at place behind
  have line : lineEnd? src o =
      some (o + (byteLength front.toList + 2 + firstLine text.toList)) := by
    rw [place.lineEnd?, String.toList_append, firstLine_append flat_all, size]
  have inside : ∀ u ∈ ts.map (·.shift (o + byteLength front.toList + 2)),
      u.start < o + (byteLength front.toList + 2 + firstLine text.toList) := by
    intro u mem
    obtain ⟨v, here, rfl⟩ := List.mem_map.mp mem
    have := onLine v here
    change o + byteLength front.toList + 2 + v.start < _
    omega
  have outside : ∀ u ∈ rest, o + (byteLength front.toList + 2 + firstLine text.toList) ≤ u.start := by
    intro u mem
    have after := behind u mem
    have := firstLine_le text.toList
    rw [byteLength_append, String.toList_append, byteLength_append, size] at after
    omega
  simp only [reads_bind, reads_eat]
  refine ⟨true, _, s, ⟨by simp [comma], rfl, rfl⟩, ?_⟩
  exact reads_lineText line inside outside span

private theorem lexes_attached {front text : String} {hs ts : List Lexeme}
    (head : Lexes Ends front.toList hs)
    (raw : Raw text ts) : Lexes Anywhere (front ++ (", " ++ (text ++ "\n"))).toList
      (hs ++ (⟨.punct .comma, byteLength front.toList, byteLength front.toList + 1⟩ ::
        ts.map (·.shift (byteLength front.toList + 2)))) := by
  have newline : Lexes Anywhere ['\n'] [] := lexes_gap (by decide)
  have back := lexes_separator.append (raw.lexes.append newline fun post _ =>
    ends_cons (by decide)) fun _ _ => trivial
  have all := head.append back fun post _ => ends_cons (by decide)
  have two : byteLength ", ".toList = 2 := rfl
  rw [two] at all
  simpa [Lexeme.shift, Function.comp_def, Nat.add_assoc] using all

private theorem span_attached {front text : String} {ts : List Lexeme} {o : Nat} (raw : Raw text ts)
    (place : At src o (front ++ ", " ++ text ++ "\n").toList) :
    span? src (ts.map (·.shift (o + byteLength front.toList + 2))) = some text := by
  have two : byteLength ", ".toList = 2 := rfl
  rw [String.toList_append] at place
  have there := place.left
  rw [String.toList_append] at there
  have spot := there.right
  rw [String.toList_append, byteLength_append, two, ← Nat.add_assoc] at spot
  exact raw.span? spot

/-- Attachments take the rest of the line. -/
theorem yields_attached (ok : GlobalReadable g) (some : g.attachments ≠ "")
    (fresh : M.symbol? g.name = none) :
    Yields src (globalText g ++ "\n") (Drafted M B)
      (Drafted { M with globals := M.globals ++ [g.reread] } B) := by
  obtain ⟨desc, ⟨fs, lexes, fits⟩, accepts⟩ := front_pieces src ok
  have kept := ok.attachments some
  obtain ⟨t, more, raw, no_align, onLine⟩ := kept.raw
  generalize front_eq : globalNameText g.name ++ globalBehind g = front
  have line : globalText g ++ "\n" = front ++ (", " ++ (g.attachments ++ "\n")) := by
    rw [globalText_eq, attachmentsText, if_neg (by simpa [String.isEmpty_iff] using some), front_eq]
    simp only [String.append_assoc]
  have front_lexes := (spelling_globalName ok.name).lexes.append lexes fun post _ => by
    have ends := ends_globalBehind g "" post
    rwa [String.append_empty] at ends
  rw [← String.toList_append, front_eq] at front_lexes
  have flat : Flat front := front_eq ▸ flat_front kept
  rw [line]
  have whole := lexes_attached front_lexes raw
  rw [List.singleton_append, List.cons_append] at whole
  refine yields_entity whole rfl ?_
  rintro o rest d place behind next ⟨rfl, bodies⟩
  have split := place
  rw [String.toList_append, ← front_eq, String.toList_append, List.append_assoc] at split
  have here := fits _ split.right.left
  generalize at_front : o + byteLength front.toList = p
  have comma : (⟨.punct .comma, p, p + 1⟩ : Lexeme).token = .punct .comma := rfl
  have follows : EndsVariable g.ty
      ((⟨.punct .comma, p, p + 1⟩ :: (t :: more).map (·.shift (p + 2)) ++ rest).map (·.token)) := by
    refine ⟨by simp, ?_, ?_⟩
    · rintro _ ⟨⟩
      rfl
    · intro rest' same
      exact no_align (List.cons.inj (List.cons.inj same).2).1
  obtain ⟨r, d₁, front_read, same, alike⟩ :=
    accepts (P := fun s => s = d) _ _ d here follows rfl
  subst alike
  have assoc : front ++ (", " ++ (g.attachments ++ "\n")) =
      front ++ ", " ++ g.attachments ++ "\n" := by simp only [String.append_assoc]
  rw [assoc] at place behind
  have attached := reads_attachments flat onLine place behind (span_attached raw place) comma d₁
  rw [at_front] at attached
  have read := reads_global front_read same attached fresh
  have shifted : (fs.map (·.shift (byteLength (globalNameText g.name).toList)) ++
        (⟨.punct .comma, byteLength front.toList, byteLength front.toList + 1⟩ ::
          (t :: more).map (·.shift (byteLength front.toList + 2)))).map (·.shift o) ++ rest =
      fs.map (·.shift (o + byteLength (globalNameText g.name).toList)) ++
        (⟨.punct .comma, p, p + 1⟩ :: (t :: more).map (·.shift (p + 2)) ++ rest) := by
    simp [Lexeme.shift, Function.comp_def, ← at_front, Nat.add_assoc]
  rw [shifted]
  exact ⟨_, read, rfl, bodies⟩

/-- The line of a global enters it. -/
theorem yields_global (ok : GlobalReadable g) (fresh : M.symbol? g.name = none) :
    Yields src (globalText g ++ "\n") (Drafted M B)
      (Drafted { M with globals := M.globals ++ [g.reread] } B) := by
  by_cases bare : g.attachments = ""
  · exact yields_bare ok bare fresh
  · exact yields_attached ok bare fresh

end

end BlockTally.Listing
