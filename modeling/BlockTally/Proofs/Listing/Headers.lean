import BlockTally.Proofs.Listing.Bodies
import BlockTally.Proofs.Listing.Signatures

/-! The first line of a written function and what is read from it. Main statement:
`header_pieces`. -/
namespace BlockTally

namespace Function

def paramTy (f : Function) (id : ValueId) : Ty := ((f.value? id).map (·.ty)).getD .void

def paramSlot (f : Function) (id : ValueId) (position : Nat) : Listing.Slot :=
  .param
    { ty := f.paramTy id
      attrs := f.attrs.param position
      name := if f.isDeclaration then none else some (f.valueName id) }

/-- The slots from a position on. -/
def slotsFrom (f : Function) (later : List ValueId) (position : Nat) : List Listing.Slot :=
  ((later.zipIdx position).map fun (id, position) => f.paramSlot id position) ++
    if f.variadic then [.ellipsis] else []

def slots (f : Function) : List Listing.Slot := f.slotsFrom f.params 0

/-- The function when the parameters in `done` are read. -/
def started (m : Module) (f : Function) (done : List ValueId) : Function where
  name := f.name
  ret := f.ret
  linkage := f.linkage
  params := done.map f.number
  values := done.map (f.entry (f.writtenTy m))
  attrs := { lead := f.attrs.lead, params := (List.range done.length).map f.attrs.param }

/-- What the first line says before the attributes at its end. -/
def announced (m : Module) (f : Function) : Function :=
  { f.started m f.params with variadic := f.variadic }

end Function

namespace Listing
open Text Read

def isTyWord (word : String) : Bool := (Ty.ofKeyword? word).isSome

/-- What the first line takes for granted. -/
structure HeaderReadable (f : Function) : Prop where
  name : Unquoted f.name
  ret : f.ret.InRange
  numbered : f.Numbered
  params : ∀ id ∈ f.params, ∃ v, f.value? id = some v ∧ v.ty.InRange ∧ v.name ≠ "" ∧
    (f.isDeclaration = false → Unquoted v.name)
  attrs : ∀ position < f.params.length, KeptParam (f.attrs.param position)
  lead : KeptWords true isTyWord f.attrs.lead

section
variable {m : Module} {f : Function} {done later : List ValueId} {id : ValueId}

private theorem idxOf_split (split : f.params = done ++ id :: later) (distinct : f.params.Nodup) :
    f.params.idxOf id = done.length ∧ id ∉ done := by
  rw [split] at distinct
  have fresh : id ∉ done := fun mem =>
    (List.nodup_append.mp distinct).2.2 id mem id List.mem_cons_self rfl
  rw [split, List.idxOf_append_of_notMem fresh]
  exact ⟨by simp, fresh⟩

private theorem number_split (split : f.params = done ++ id :: later) (distinct : f.params.Nodup) :
    f.number id = ⟨done.length⟩ := by
  have position := (idxOf_split split distinct).1
  have mem : id ∈ f.params := by rw [split]; simp
  rw [Function.number_eq (prefix_foldl_meet f.params f.mentions) mem, position]

private theorem names_started (done : List ValueId) :
    (f.started m done).values.map (·.name) = done.map f.writtenName := by
  rw [Function.started, List.map_map]
  rfl

/-- The name that a parameter is given when it is read. -/
theorem freshName_started (ok : HeaderReadable f) (split : f.params = done ++ id :: later) :
    freshName ((f.started m done).values.map (·.name)) done.length
      ((if f.isDeclaration then none else some (f.valueName id)).getD "") = f.writtenName id := by
  have distinct := ok.numbered.params_nodup
  obtain ⟨position, fresh⟩ := idxOf_split split distinct
  have here : id ∈ f.params := by rw [split]; simp
  rw [names_started]
  cases declared : f.isDeclaration with
  | true =>
    have written : ∀ a ∈ f.params, f.writtenName a = toString (f.params.idxOf a) := by
      intro a mem
      rw [Function.writtenName, declared, if_pos rfl]
    rw [written id here, position]
    refine freshName_number fun taken => ?_
    obtain ⟨a, mem, same⟩ := List.mem_map.mp taken
    have inside : a ∈ f.params := by rw [split]; exact List.mem_append_left _ mem
    rw [written a inside] at same
    have index := toString_nat_injective _ _ same
    rw [split, List.idxOf_append_of_mem mem] at index
    have bound := List.idxOf_lt_length_iff.mpr mem
    omega
  | false =>
    obtain ⟨v, found, -, some_name, -⟩ := ok.params id here
    rw [if_neg Bool.false_ne_true, writtenName_eq declared]
    have name : f.valueName id = v.name := Function.valueName_eq found
    refine freshName_free (by rw [Option.getD_some, name]; exact some_name) ?_ done.length
    intro taken
    obtain ⟨a, mem, same⟩ := List.mem_map.mp taken
    have inside : a ∈ f.params := by rw [split]; exact List.mem_append_left _ mem
    have known : ∀ a ∈ f.params, (f.value? a).isSome := fun a mem =>
      ok.numbered.known a (List.mem_append_left _ mem)
    have equal := ok.numbered.name_injective (known a inside) (known id here) same
    exact fresh (equal ▸ mem)

private theorem addTo_started (ok : HeaderReadable f) (split : f.params = done ++ id :: later) :
    (f.paramSlot id done.length).addTo (f.started m done) = f.started m (done ++ [id]) := by
  have distinct := ok.numbered.params_nodup
  have here : id ∈ f.params := by rw [split]; simp
  have name := freshName_started (m := m) ok split
  have entry : f.entry (f.writtenTy m) id =
      ⟨f.writtenName id, f.paramTy id, .parameter done.length⟩ := by
    rw [Function.entry, if_pos here, (idxOf_split split distinct).1, Function.writtenTy, if_pos here]
    rfl
  have number := number_split split distinct
  have size : (f.started m done).values.length = done.length := by simp [Function.started]
  have size' : (f.started m done).params.length = done.length := by simp [Function.started]
  unfold Function.paramSlot Slot.addTo Param.addTo Function.addParam Function.addValue
  simp only [size, size', name]
  simp [Function.started, entry, number, List.range_succ]

private theorem fits_paramSlot (ok : HeaderReadable f) (split : f.params = done ++ id :: later) :
    ∀ name ∈ (if f.isDeclaration then none else some (f.valueName id)),
      name ∉ (f.started m done).values.map (·.name) := by
  intro name given
  cases declared : f.isDeclaration with
  | true =>
    rw [declared, if_pos rfl] at given
    cases given
  | false =>
    rw [declared, if_neg Bool.false_ne_true] at given
    obtain rfl := Option.some.inj given
    have fresh := freshName_not_mem ((f.started m done).values.map (·.name)) done.length
      ((if f.isDeclaration then none else some (f.valueName id)).getD "")
    rwa [freshName_started ok split, writtenName_eq declared] at fresh

/-- The parameters that are left complete the function. -/
theorem slots_started (ok : HeaderReadable f) (split : f.params = done ++ later) :
    Fits (f.started m done) (f.slotsFrom later done.length) ∧
      (f.slotsFrom later done.length).foldl Slot.addTo (f.started m done) = f.announced m := by
  induction later generalizing done with
  | nil =>
    rw [List.append_nil] at split
    subst split
    unfold Function.slotsFrom Function.announced
    cases f.variadic with
    | true => exact ⟨⟨rfl, rfl⟩, rfl⟩
    | false => exact ⟨trivial, rfl⟩
  | cons id later ih =>
    have grown : f.params = (done ++ [id]) ++ later := by rw [split]; simp
    have more := ih grown
    rw [← addTo_started ok split, List.length_append, List.length_singleton] at more
    exact ⟨⟨rfl, fits_paramSlot ok split, more.1⟩, more.2⟩

end

/-! The words, the return type, the name and the parameters. -/

private theorem keywordPieces_known (linkage : Linkage) {numbered : Bool} :
    ∀ p ∈ keywordPieces linkage.keyword, p.Known numbered ∧ isTyWord p.word = false := by
  intro p mem
  unfold keywordPieces at mem
  split at mem
  · cases mem
  · next some =>
    obtain rfl := List.mem_singleton.mp mem
    cases linkage with
    | external => exact absurd rfl some
    | _ => exact ⟨keyword_known (by decide), by decide⟩

private theorem foldl_keyword (linkage : Linkage) :
    (keywordPieces linkage.keyword).foldl Piece.addTo {} = { linkage } := by
  cases linkage <;> rfl

theorem mapM_some {α β : Type} {text : α → Option β} {value : α → β} {xs : List α}
    (each : ∀ x ∈ xs, text x = some (value x)) : xs.mapM text = some (xs.map value) := by
  induction xs with
  | nil => rfl
  | cons x xs ih =>
    rw [List.mapM_cons, each x List.mem_cons_self, ih fun y mem => each y (List.mem_cons_of_mem _ mem)]
    rfl

section
variable {src : List Char} {m : Module} {f : Function}

/-- The first line of a function up to the closing parenthesis. -/
def headerDescribed (src : List Char) (f : Function) (pieces : List Piece) : Described :=
  Then (Each (Piece.described src) (keywordPieces f.linkage.keyword ++ pieces))
    (signatureDescribed src f.ret f.name f.slots)

/-- The same without the parenthesis. -/
def openHeaderDescribed (src : List Char) (f : Function) (pieces : List Piece) : Described :=
  Then (Each (Piece.described src) (keywordPieces f.linkage.keyword ++ pieces))
    (unclosedDescribed src f.ret f.name f.slots)

theorem header_closed {pieces : List Piece} {ts : List Lexeme} {t : Lexeme}
    (unclosed : openHeaderDescribed src f pieces ts) (paren : t.token = .punct .rparen) :
    headerDescribed src f pieces (ts ++ [t]) := by
  obtain ⟨front, back, rfl, words, signature⟩ := unclosed
  exact ⟨front, back ++ [t], by rw [List.append_assoc], words, signature_closed signature paren⟩

def trailText (f : Function) : String :=
  if f.attrs.trail.isEmpty then "" else " " ++ f.attrs.trail

private theorem signature_head {ret : Ty} {name : String} {slots : List Slot} {ts : List Lexeme}
    (described : signatureDescribed src ret name slots ts) :
    (ts.map (·.token)).head? = some (.word ret.text) := by
  obtain ⟨front, back, rfl, opening, -⟩ := described
  rw [List.map_append, opening]
  rfl

private theorem slots_known (ok : HeaderReadable f) : ∀ slot ∈ f.slots, slot.Known := by
  intro slot mem
  rcases List.mem_append.mp mem with param | last
  · obtain ⟨⟨id, position⟩, inside, rfl⟩ := List.mem_map.mp param
    have here := List.mem_zipIdx_iff_getElem?.mp inside
    have bound := (List.getElem?_eq_some_iff.mp here).1
    have member : id ∈ f.params := List.mem_of_getElem? here
    obtain ⟨v, found, ty, -, unquoted⟩ := ok.params id member
    refine ⟨?_, ok.attrs position bound, ?_⟩
    · rw [Function.paramTy, found]
      exact ty
    · intro name given
      cases declared : f.isDeclaration with
      | true =>
        simp only [declared, if_true] at given
        cases given
      | false =>
        simp only [declared, Bool.false_eq_true, if_false] at given
        obtain rfl := Option.some.inj given
        rw [Function.valueName_eq found]
        exact unquoted declared
  · split at last
    · rw [List.mem_singleton.mp last]
      trivial
    · cases last

private theorem paramText_eq (ok : HeaderReadable f) {id : ValueId} (mem : id ∈ f.params)
    (position : Nat) :
    paramText f position id = some (f.paramSlot id position).text := by
  obtain ⟨v, found, -⟩ := ok.params id mem
  unfold paramText Function.paramSlot Slot.text Param.text
  have name : f.valueName id = v.name := Function.valueName_eq found
  rw [found, Function.paramTy, found, name]
  cases f.isDeclaration with
  | true => rfl
  | false => rfl

private theorem headText_eq (ok : HeaderReadable f) {pieces : List Piece}
    (known : ∀ p ∈ pieces, p.Known true) (lead : f.attrs.lead = " ".intercalate (pieces.map (·.text))) :
    headText f = some (String.join ((keywordPieces f.linkage.keyword ++ pieces).map (·.text ++ " ")) ++
      (f.ret.text ++ " " ++ globalNameText f.name ++ "(" ++
        ", ".intercalate (f.slots.map Slot.text)) ++ (")" ++ trailText f)) := by
  have params : f.params.zipIdx.mapM (fun (id, position) => paramText f position id) =
      some (f.params.zipIdx.map fun (id, position) => (f.paramSlot id position).text) := by
    refine mapM_some fun ⟨id, position⟩ mem => ?_
    exact paramText_eq ok (List.mem_of_getElem? (List.mem_zipIdx_iff_getElem?.mp mem)) position
  have texts : f.slots.map Slot.text =
      (f.params.zipIdx.map fun (id, position) => (f.paramSlot id position).text) ++
        if f.variadic then ["..."] else [] := by
    unfold Function.slots Function.slotsFrom
    rw [List.map_append, List.map_map]
    cases f.variadic <;> rfl
  have words : wordText f.linkage.keyword ++ wordText f.attrs.lead =
      String.join ((keywordPieces f.linkage.keyword ++ pieces).map (·.text ++ " ")) := by
    have some_text : ∀ text ∈ pieces.map (·.text), text ≠ "" := by
      intro text mem
      obtain ⟨p, inside, rfl⟩ := List.mem_map.mp mem
      exact (known p inside).text_ne
    rw [List.map_append, String.join_append, wordText_keyword, lead, wordText_intercalate some_text,
      List.map_map]
    rfl
  unfold headText
  rw [params, words, texts]
  simp only [Option.bind_eq_bind, Option.bind_some, trailText, String.append_assoc]
  rfl

/-- The end of a first line, behind its words. -/
def readTyped {σ : Type} (src : List Char) (words : Words) : Read σ Function := do
  match ← peekToken with
  | some (.word _) => readSignature src words
  | _ => unexpected .returnTy

variable (src) in
/-- The first line is described, and what the reader makes of it is known. -/
theorem header_pieces (ok : HeaderReadable f) : ∃ pieces : List Piece,
    (∃ text, headText f = some (text ++ (")" ++ trailText f)) ∧
      Describes src Ends text (openHeaderDescribed src f pieces)) ∧
    ∀ {σ : Type} {P : σ → Prop}, Accepts (readHeader src) (headerDescribed src f pieces)
      (fun _ => True) P fun g s => g = f.announced m ∧ P s := by
  obtain ⟨pieces, lead, known⟩ := ok.lead
  have all : ∀ p ∈ keywordPieces f.linkage.keyword ++ pieces,
      p.Known true ∧ isTyWord p.word = false := by
    intro p mem
    rcases List.mem_append.mp mem with keyword | word
    · exact keywordPieces_known f.linkage p keyword
    · exact ⟨(known p word).1, (known p word).2.1⟩
  have words : (keywordPieces f.linkage.keyword ++ pieces).foldl Piece.addTo {} =
      { linkage := f.linkage, others := pieces.map (·.text) } := by
    rw [List.foldl_append, foldl_keyword, foldl_addTo fun p mem => (known p mem).2.2]
    rfl
  refine ⟨pieces, ⟨_, headText_eq ok (fun p mem => (known p mem).1) lead, ?_⟩, ?_⟩
  · exact (describes_pieces fun p mem => (all p mem).1).append
      (describes_unclosed ok.name (slots_known ok)) fun _ _ => trivial
  · intro σ P
    have started : headed { linkage := f.linkage, others := pieces.map (·.text) } f.ret f.name =
        f.started m [] := by
      unfold headed
      rw [← lead]
      rfl
    have split : f.params = [] ++ f.params := rfl
    obtain ⟨fits, whole⟩ := slots_started (m := m) ok split
    rw [← started] at fits whole
    have signature : ∀ words, Accepts (readTyped src words)
        (signatureDescribed src f.ret f.name f.slots) (fun _ => True)
        (fun s => words = { linkage := f.linkage, others := pieces.map (·.text) } ∧ P s)
        fun g s => g = f.announced m ∧ P s := by
      rintro words ts rest s described - ⟨rfl, holds⟩
      obtain ⟨g, s', read, same, holds'⟩ := accepts_signature ok.ret (slots_known ok) fits ts rest s
        described trivial holds
      refine ⟨g, s', ?_, same.trans whole, holds'⟩
      have first := signature_head described
      simp only [readTyped, reads_bind, reads_peekToken]
      refine ⟨_, _, _, ⟨rfl, rfl, rfl⟩, ?_⟩
      rw [← List.head?_map, List.map_append, List.head?_append, first]
      exact read
    have between : ∀ ts rest, signatureDescribed src f.ret f.name f.slots ts → True →
        LastWord isTyWord (ts ++ rest) := by
      intro ts rest described _
      refine ⟨f.ret.text, ?_, ?_⟩
      · rw [List.map_append, List.head?_append, signature_head described]
        rfl
      · rw [isTyWord, Ty.ofKeyword?_text ok.ret]
        rfl
    have words_read := accepts_words src (P := P) all
    rw [words] at words_read
    exact words_read.bind signature between

end

end Listing

end BlockTally
