import BlockTally.Proofs.Listing.Phrases
import BlockTally.Proofs.Listing.Words

/-! The first line of a function: words, return type, name and parameters. Main statements:
`describes_slot`, `accepts_signature`. -/
namespace BlockTally.Listing
open Text Read

/-- A parameter as it stands in the text. Only a definition names it. -/
structure Param where
  ty : Ty
  attrs : String
  name : Option String

inductive Slot where
  | param (p : Param)
  | ellipsis

namespace Param

def nameTokens (p : Param) : List Token := p.name.toList.map .localName

def described (src : List Char) (p : Param) : Described :=
  Then (Of [.word p.ty.text]) (Then (Spanning src p.attrs (tokensOf p.attrs)) (Of p.nameTokens))

def text (p : Param) : String :=
  p.ty.text ++ (if p.attrs.isEmpty then "" else " " ++ p.attrs) ++
    (match p.name with | some name => " " ++ localNameText name | none => "")

/-- The function with the parameter. -/
def addTo (f : Function) (p : Param) : Function :=
  (({ f with attrs := { f.attrs with params := f.attrs.params ++ [p.attrs] } } : Function).addParam
    p.ty (p.name.getD "")).2

end Param

/-- Text that the reader takes for attributes of a parameter. -/
def KeptParam (attrs : String) : Prop := ∃ ts, Raw attrs ts ∧ AreAttributes (ts.map (·.token))

structure Param.Known (p : Param) : Prop where
  ty : p.ty.InRange
  attrs : KeptParam p.attrs
  name : ∀ name ∈ p.name, Unquoted name

section
variable {src : List Char}

private theorem ends_attrs (attrs : String) :
    Ends (if attrs.isEmpty then "" else " " ++ attrs).toList := by
  split
  · exact Ends.nil
  · exact ends_space

private theorem describes_attrs {attrs : String} {ts : List Lexeme} (raw : Raw attrs ts) :
    Describes src Ends (if attrs.isEmpty then "" else " " ++ attrs)
      (Spanning src attrs (tokensOf attrs)) := by
  have whole : Describes src Ends attrs (Spanning src attrs (tokensOf attrs)) := by
    rw [raw.tokensOf_eq]
    exact raw.describes
  by_cases empty : attrs = ""
  · rw [if_pos (by simp [empty])]
    rwa [empty] at whole ⊢
  · rw [if_neg (by simpa [String.isEmpty_iff] using empty)]
    exact whole.leading spells_space

theorem Param.Known.describes {p : Param} (known : p.Known) :
    Describes src Ends p.text (p.described src) := by
  obtain ⟨-, ⟨ts, raw, -⟩, unquoted⟩ := known
  have name : Describes src Ends (match p.name with | some name => " " ++ localNameText name | none => "")
      (Of p.nameTokens) := by
    rw [nameTokens]
    cases given : p.name with
    | none => exact spells_empty.describes
    | some name => exact (spells_space.next (spells_localName (unquoted name given))).describes
  have apart : Ends (match p.name with | some name => " " ++ localNameText name | none => "").toList := by
    split
    · exact ends_space
    · exact Ends.nil
  rw [text, String.append_assoc]
  refine (spells_ty p.ty).describes.append ((describes_attrs raw).append name ?_) ?_
  · exact fun post ends => apart.append ends
  · intro post ends
    rw [String.toList_append, List.append_assoc]
    exact (ends_attrs p.attrs).append (apart.append ends)

end

/-! Reading a parameter. -/

/-- What follows a parameter. -/
abbrev Separates : List Lexeme → Prop := fun rest =>
  (rest.map (·.token)).head? = some (.punct .comma) ∨ (rest.map (·.token)).head? = some (.punct .rparen)

private theorem reads_eat_other {σ : Type} {t : Token} {ts : List Lexeme} {s : σ}
    (other : (ts.map (·.token)).head? ≠ some t) : Reads (eat t) ts s false ts s := by
  rw [List.head?_map] at other
  exact reads_eat.mpr ⟨by simpa using other, rfl, rfl⟩

section
variable {src : List Char} {σ : Type} {P : σ → Prop}

/-- The end of a parameter, from its name on. -/
def readParamName (f : Function) (ty : Ty) : Read σ Function := do
  match ← peek with
  | some ⟨.localName name, start, _⟩ =>
    skip
    if (f.valueNamed? name).isSome then refuseAt (some start) (.duplicateParameter name)
    else return (f.addParam ty name).2
  | _ => return (f.addParam ty "").2

private theorem accepts_paramName {p : Param} {f : Function}
    (fresh : ∀ name ∈ p.name, name ∉ f.values.map (·.name)) :
    Accepts (readParamName f p.ty) (Of p.nameTokens) Separates P
      fun g s => g = (f.addParam p.ty (p.name.getD "")).2 ∧ P s := by
  intro ts rest s fits apart holds
  simp only [readParamName, reads_bind, reads_peek]
  cases given : p.name with
  | none =>
    rw [Of, Param.nameTokens, given] at fits
    obtain rfl := List.map_eq_nil_iff.mp fits
    refine ⟨_, s, ⟨_, _, _, ⟨rfl, rfl, rfl⟩, ?_⟩, rfl, holds⟩
    rw [List.nil_append]
    cases rest with
    | nil => exact reads_pure.mpr ⟨rfl, rfl, rfl⟩
    | cons t rest =>
      obtain ⟨token, start, stop⟩ := t
      rcases apart with comma | paren
      · obtain rfl : token = .punct .comma := Option.some.inj comma
        exact reads_pure.mpr ⟨rfl, rfl, rfl⟩
      · obtain rfl : token = .punct .rparen := Option.some.inj paren
        exact reads_pure.mpr ⟨rfl, rfl, rfl⟩
  | some name =>
    rw [Of, Param.nameTokens, given] at fits
    obtain ⟨⟨token, start, stop⟩, rfl, same⟩ := List.map_eq_singleton_iff.mp fits
    obtain rfl : token = .localName name := same
    have free : (f.valueNamed? name).isSome = false := by
      rw [← Bool.not_eq_true, Function.valueNamed?_isSome]
      exact fresh name given
    refine ⟨_, s, ⟨_, _, _, ⟨rfl, rfl, rfl⟩, ?_⟩, rfl, holds⟩
    simp only [List.singleton_append, List.head?_cons, reads_bind, reads_skip]
    refine ⟨(), _, _, ⟨rfl, rfl⟩, ?_⟩
    rw [free, if_neg Bool.false_ne_true]
    exact reads_pure.mpr ⟨rfl, rfl, rfl⟩

private theorem separates_name {p : Param} {ts rest : List Lexeme} (fits : Of p.nameTokens ts)
    (apart : Separates rest) : ∀ t ∈ ((ts ++ rest).map (·.token)).head?,
      (∃ name, t = .localName name) ∨ t = .punct .comma ∨ t = .punct .rparen := by
  intro t first
  rw [List.map_append, fits] at first
  cases given : p.name with
  | none =>
    rw [Param.nameTokens, given] at first
    rcases apart with comma | paren
    · exact .inr (.inl (Option.some.inj (first.symm.trans comma)))
    · exact .inr (.inr (Option.some.inj (first.symm.trans paren)))
  | some name =>
    rw [Param.nameTokens, given] at first
    exact .inl ⟨name, (Option.some.inj first).symm⟩

private theorem accepts_param {p : Param} (known : p.Known) {f : Function}
    (fresh : ∀ name ∈ p.name, name ∉ f.values.map (·.name)) :
    Accepts (readParam src f) (p.described src) Separates P fun g s => g = p.addTo f ∧ P s := by
  rintro _ rest s ⟨front, _, rfl, ty, mid, back, rfl, ⟨attrs, span⟩, name⟩ apart holds
  obtain ⟨ts, raw, attributes⟩ := known.attrs
  rw [raw.tokensOf_eq] at attrs
  have follows := separates_name name apart
  have behind : NoArgument ((back ++ rest).map (·.token)) ∧
      NoAttribute ((back ++ rest).map (·.token)) := by
    constructor
    · intro t first
      rcases follows t first with ⟨_, rfl⟩ | rfl | rfl <;> exact ⟨nofun, nofun⟩
    · intro t first
      rcases follows t first with ⟨_, rfl⟩ | rfl | rfl <;> exact ⟨nofun, nofun⟩
  have no_star : NoStar ((mid ++ (back ++ rest)).map (·.token)) := by
    intro star
    rw [List.map_append, attrs] at star
    obtain ⟨items, -, tokens⟩ := attributes
    rw [tokens] at star
    cases items with
    | nil => rcases follows _ star with ⟨_, same⟩ | same | same <;> cases same
    | cons item items => cases item <;> cases star
  obtain ⟨s₁, readTy, holds₁⟩ := takes_ty known.ty front (mid ++ (back ++ rest)) s ty no_star holds
  obtain ⟨s₂, readAttrs, holds₂⟩ := takes_attributes attributes mid (back ++ rest) s₁ attrs behind
    holds₁
  obtain ⟨g, s₃, readName, same, holds₃⟩ := accepts_paramName (P := P)
    (f := { f with attrs := { f.attrs with params := f.attrs.params ++ [p.attrs] } }) fresh
    back rest s₂ name apart holds₂
  refine ⟨g, s₃, ?_, ?_, holds₃⟩
  · have no_ellipsis : ((front ++ (mid ++ back) ++ rest).map (·.token)).head? ≠
        some (.punct .ellipsis) := by
      rw [List.append_assoc, List.map_append, ty]
      nofun
    unfold readParam
    simp only [reads_bind]
    refine ⟨false, _, s, reads_eat_other no_ellipsis, ?_⟩
    rw [if_neg Bool.false_ne_true, List.append_assoc, List.append_assoc]
    simp only [reads_bind, reads_taken, reads_readSpan]
    exact ⟨p.ty, _, s₁, readTy, mid, _, s₂, ⟨readAttrs, rfl⟩, _, _, _, ⟨span, rfl, rfl⟩,
      reads_bind.mp readName⟩
  · rw [same]
    rfl

end

/-! Signatures. -/

namespace Slot

def described (src : List Char) : Slot → Described
  | param p => p.described src
  | ellipsis => Of [.punct .ellipsis]

def text : Slot → String
  | param p => p.text
  | ellipsis => "..."

def addTo (f : Function) : Slot → Function
  | param p => p.addTo f
  | ellipsis => { f with variadic := true }

def Known : Slot → Prop
  | param p => p.Known
  | ellipsis => True

end Slot

/-- Slots with commas between them. -/
def slotsDescribed (src : List Char) : List Slot → Described
  | [] => fun ts => ts = []
  | slot :: slots => Then (slot.described src)
      (Each (fun slot => Then (Of [.punct .comma]) (slot.described src)) slots)

/-- Each parameter has a name of its own, and nothing follows an ellipsis. -/
def Fits : Function → List Slot → Prop
  | _, [] => True
  | f, .param p :: slots => f.variadic = false ∧ (∀ name ∈ p.name, name ∉ f.values.map (·.name)) ∧
      Fits (p.addTo f) slots
  | f, .ellipsis :: slots => f.variadic = false ∧ slots = []

section
variable {src : List Char}

theorem intercalate_cons (sep first : String) (rest : List String) :
    sep.intercalate (first :: rest) = first ++ .join (rest.map (sep ++ ·)) := by
  induction rest generalizing first with
  | nil => simp
  | cons next rest ih =>
    rw [String.intercalate_cons_cons, ih, List.map_cons, String.join_cons]
    simp only [String.append_assoc]

theorem Slot.Known.describes {slot : Slot} (known : slot.Known) :
    Describes src Ends slot.text (slot.described src) := by
  cases slot with
  | param p => exact Param.Known.describes known
  | ellipsis => exact spells_ellipsis.describes

private theorem describes_slots {slots : List Slot} (known : ∀ slot ∈ slots, slot.Known) :
    Describes src Ends (", ".intercalate (slots.map Slot.text)) (slotsDescribed src slots) := by
  cases slots with
  | nil => exact ⟨[], .nil, fun _ _ => rfl⟩
  | cons slot slots =>
    have later : ∀ slots : List Slot, (∀ slot ∈ slots, slot.Known) →
        Describes src Ends (.join ((slots.map Slot.text).map (", " ++ ·)))
          (Each (fun slot => Then (Of [.punct .comma]) (slot.described src)) slots) ∧
        Ends (String.join ((slots.map Slot.text).map (", " ++ ·))).toList := by
      intro slots
      induction slots with
      | nil => exact fun _ => ⟨⟨[], .nil, fun _ _ => rfl⟩, Ends.nil⟩
      | cons slot slots ih =>
        intro known
        obtain ⟨rest, apart⟩ := ih fun slot mem => known slot (List.mem_cons_of_mem _ mem)
        have here : Describes src Ends slot.text (slot.described src) :=
          (known slot List.mem_cons_self).describes
        rw [List.map_cons, List.map_cons, String.join_cons]
        refine ⟨(spells_comma.describes.append here fun _ _ => trivial).append rest ?_, ?_⟩
        · exact fun post ends => apart.append ends
        · rw [String.toList_append, String.toList_append]
          exact ends_cons (by decide)
    obtain ⟨rest, apart⟩ := later slots fun slot mem => known slot (List.mem_cons_of_mem _ mem)
    rw [List.map_cons, intercalate_cons]
    exact (known slot List.mem_cons_self).describes.append rest fun post ends => apart.append ends

variable {σ : Type} {P : σ → Prop}

private theorem accepts_slot {slot : Slot} (known : slot.Known) {f : Function} {later : List Slot}
    (fits : Fits f (slot :: later)) :
    Accepts (readParam src f) (slot.described src) Separates P
      fun g s => g = slot.addTo f ∧ P s := by
  cases slot with
  | param p => exact accepts_param known fits.2.1
  | ellipsis =>
    have takes : Takes (readParam src f) [.punct .ellipsis] Anything P { f with variadic := true } P :=
      takes_eaten takes_pure
    intro ts rest s same _ holds
    obtain ⟨s', read, holds'⟩ := takes ts rest s same trivial holds
    exact ⟨_, s', read, rfl, holds'⟩

theorem Fits.step {slot : Slot} {f : Function} {later : List Slot} (fits : Fits f (slot :: later)) :
    Fits (slot.addTo f) later := by
  cases slot with
  | param p => exact fits.2.2
  | ellipsis =>
    obtain ⟨-, rfl⟩ := fits
    trivial

theorem Fits.open {slot : Slot} {f : Function} {later : List Slot} (fits : Fits f (slot :: later)) :
    f.variadic = false := by
  cases slot with
  | param p => exact fits.1
  | ellipsis => exact fits.1

end

section
variable {src : List Char} {σ : Type} {P : σ → Prop}

theorem Slot.described_cons (slot : Slot) {ts : List Lexeme} (described : slot.described src ts) :
    ∃ t more, ts = t :: more ∧ t.token ≠ .punct .rparen := by
  cases slot with
  | param p =>
    obtain ⟨front, back, rfl, ty, -⟩ := described
    obtain ⟨t, rfl, token⟩ := List.map_eq_singleton_iff.mp ty
    exact ⟨t, back, rfl, by rw [token]; nofun⟩
  | ellipsis =>
    obtain ⟨t, rfl, token⟩ := List.map_eq_singleton_iff.mp described
    exact ⟨t, [], rfl, by rw [token]; nofun⟩

/-- Parameters up to the closing parenthesis. -/
def readSlots (src : List Char) (f : Function) : Read σ Function := do
  if ← eat (.punct .rparen) then return f
  let f ← whileNext
    (fun f t _ => if !f.variadic && t.token = .punct .comma then some () else none)
    (fun _ f => readParam src f) (← readParam src f)
  if f.variadic then
    expect (.punct .rparen)
    return f
  else if ← eat (.punct .rparen) then return f
  else unexpected (.token (.punct .comma))

/-- What is known of a function before its parameters. -/
def headed (words : Words) (ret : Ty) (name : String) : Function where
  name := name
  ret := ret
  linkage := words.linkage
  attrs := { lead := " ".intercalate words.others }

theorem readSignature_eq (src : List Char) (words : Words) :
    (readSignature src words : Read σ Function) = (do
      let ret ← readTy
      let name ← demand .globalName fun | .globalName name => some name | _ => none
      expect (.punct .lparen)
      readSlots src (headed words ret name)) := rfl

abbrev Closes : List Lexeme → Prop := fun rest =>
  (rest.map (·.token)).head? = some (.punct .rparen)

private theorem separates_each {later : List Slot} {ts rest : List Lexeme}
    (each : Each (fun slot : Slot => Then (Of [.punct .comma]) (slot.described src)) later ts)
    (closing : Closes rest) : Separates (ts ++ rest) := by
  cases later with
  | nil =>
    obtain rfl : ts = [] := each
    exact .inr closing
  | cons slot later =>
    obtain ⟨_, back, rfl, ⟨front, mid, rfl, comma, -⟩, -⟩ := each
    refine .inl ?_
    rw [List.append_assoc, List.append_assoc, List.map_append, comma]
    rfl

private theorem accepts_moreSlots {slots : List Slot} (known : ∀ slot ∈ slots, slot.Known)
    {f : Function} (fits : Fits f slots) :
    Accepts (whileNext (fun f t _ => if !f.variadic && t.token = .punct .comma then some () else none)
        (fun _ f => readParam src f) f)
      (Each (fun slot => Then (Of [.punct .comma]) (slot.described src)) slots) Closes P
      fun g s => g = slots.foldl Slot.addTo f ∧ P s := by
  have loop : Accepts (whileNext
        (fun f t _ => if !f.variadic && t.token = .punct .comma then some () else none)
        (fun _ f => readParam src f) f)
      (Each (fun slot => Then (Of [.punct .comma]) (slot.described src)) slots) Closes
      (fun s => slots.foldl Slot.addTo f = slots.foldl Slot.addTo f ∧ Fits f slots ∧ P s)
      fun g s => slots.foldl Slot.addTo f = [].foldl Slot.addTo g ∧ Fits g [] ∧ P s := by
    refine accepts_loop (fun slot : Slot => Then (Of [.punct .comma]) (slot.described src))
      (fun g later s => slots.foldl Slot.addTo f = later.foldl Slot.addTo g ∧ Fits g later ∧ P s)
      Separates ?_ (fun _ _ _ => separates_each) ?_ f
    · rintro slot mem g later _ rest s ⟨front, back, rfl, comma, described⟩ apart ⟨fold, fits, holds⟩
      obtain ⟨t, rfl, token⟩ := List.map_eq_singleton_iff.mp comma
      obtain ⟨h, s', read, rfl, holds'⟩ := accepts_slot (known slot mem) fits back rest s described
        apart holds
      refine ⟨t, back, (), _, s', rfl, ?_, read, fold, fits.step, holds'⟩
      simp [token, fits.open]
    · intro g t ts closing
      have token : t.token = .punct .rparen := Option.some.inj closing
      simp [token]
  intro ts rest s each closing holds
  obtain ⟨g, s', read, same, -, holds'⟩ := loop ts rest s each closing ⟨rfl, fits, holds⟩
  exact ⟨g, s', read, same.symm, holds'⟩

private theorem accepts_slots {slots : List Slot} (known : ∀ slot ∈ slots, slot.Known)
    {f : Function} (fits : Fits f slots) :
    Accepts (readSlots src f) (Then (slotsDescribed src slots) (Of [.punct .rparen]))
      (fun _ => True) P fun g s => g = slots.foldl Slot.addTo f ∧ P s := by
  rintro _ rest s ⟨front, back, rfl, described, closing⟩ - holds
  obtain ⟨t, rfl, token⟩ := List.map_eq_singleton_iff.mp closing
  cases slots with
  | nil =>
    obtain rfl : front = [] := described
    have takes : Takes (readSlots src f) [.punct .rparen] Anything P f P := takes_eaten takes_pure
    obtain ⟨s', read, holds'⟩ := takes [t] rest s closing trivial holds
    exact ⟨f, s', read, rfl, holds'⟩
  | cons slot slots =>
    obtain ⟨head, tail, rfl, first, each⟩ := described
    have closes : Closes (t :: rest) := by rw [Closes, List.map_cons, token]; rfl
    obtain ⟨g, s₁, read, rfl, holds₁⟩ := accepts_slot (known slot List.mem_cons_self) fits head
      (tail ++ t :: rest) s first (separates_each each closes) holds
    obtain ⟨h, s₂, rounds, rfl, holds₂⟩ := accepts_moreSlots (P := P)
      (fun slot mem => known slot (List.mem_cons_of_mem _ mem)) fits.step tail (t :: rest) s₁ each
      closes holds₁
    refine ⟨_, s₂, ?_, rfl, holds₂⟩
    obtain ⟨u, more, rfl, other⟩ := slot.described_cons first
    have no_paren : ((u :: more ++ tail ++ [t] ++ rest).map (·.token)).head? ≠
        some (.punct .rparen) := fun same => other (Option.some.inj same)
    unfold readSlots
    simp only [reads_bind]
    refine ⟨false, _, s, reads_eat_other no_paren, ?_⟩
    rw [if_neg Bool.false_ne_true]
    simp only [List.append_assoc, List.singleton_append, reads_bind] at read rounds ⊢
    refine ⟨_, _, _, read, _, _, _, rounds, ?_⟩
    split
    · simp only [reads_bind, reads_expect, reads_pure]
      exact ⟨(), _, _, ⟨t, rfl, token, rfl⟩, rfl, rfl, rfl⟩
    · simp only [reads_bind, reads_eat]
      refine ⟨true, rest, s₂, ⟨by simp [token], rfl, rfl⟩, ?_⟩
      exact reads_pure.mpr ⟨rfl, rfl, rfl⟩

/-- From the return type on. -/
def signatureDescribed (src : List Char) (ret : Ty) (name : String) (slots : List Slot) : Described :=
  Then (Of ([.word ret.text] ++ [.globalName name] ++ [.punct .lparen]))
    (Then (slotsDescribed src slots) (Of [.punct .rparen]))

/-- The same without the closing parenthesis. -/
def unclosedDescribed (src : List Char) (ret : Ty) (name : String) (slots : List Slot) : Described :=
  Then (Of ([.word ret.text] ++ [.globalName name] ++ [.punct .lparen])) (slotsDescribed src slots)

theorem signature_closed {ret : Ty} {name : String} {slots : List Slot} {ts : List Lexeme}
    {t : Lexeme} (unclosed : unclosedDescribed src ret name slots ts)
    (paren : t.token = .punct .rparen) : signatureDescribed src ret name slots (ts ++ [t]) := by
  obtain ⟨front, back, rfl, opening, inside⟩ := unclosed
  refine ⟨front, back ++ [t], by rw [List.append_assoc], opening, back, [t], rfl, inside, ?_⟩
  rw [Of, List.map_singleton, paren]

theorem describes_unclosed {ret : Ty} {name : String} (unquoted : Unquoted name)
    {slots : List Slot} (known : ∀ slot ∈ slots, slot.Known) :
    Describes src Ends (ret.text ++ " " ++ globalNameText name ++ "(" ++
      ", ".intercalate (slots.map Slot.text)) (unclosedDescribed src ret name slots) := by
  have opening := ((spells_ty ret).spaced (spells_globalName unquoted)).closed spells_lparen
    (by decide) (ends_cons (by decide))
  exact opening.describes.append (describes_slots known) fun _ _ => trivial

theorem accepts_signature {words : Words} {ret : Ty} {name : String} (ok : ret.InRange)
    {slots : List Slot} (known : ∀ slot ∈ slots, slot.Known)
    (fits : Fits (headed words ret name) slots) :
    Accepts (readSignature src words) (signatureDescribed src ret name slots) (fun _ => True) P
      fun g s => g = slots.foldl Slot.addTo (headed words ret name) ∧ P s := by
  rintro _ rest s ⟨front, back, rfl, opening, described⟩ - holds
  obtain ⟨two, last, rfl, here, there⟩ := List.map_eq_append_iff.mp opening
  obtain ⟨one, mid, rfl, ty, symbol⟩ := List.map_eq_append_iff.mp here
  obtain ⟨n, rfl, named⟩ := List.map_eq_singleton_iff.mp symbol
  obtain ⟨l, rfl, paren⟩ := List.map_eq_singleton_iff.mp there
  have no_star : NoStar ((n :: l :: (back ++ rest)).map (·.token)) := by
    intro star
    rw [List.map_cons, named] at star
    cases star
  obtain ⟨s₁, readTy, holds₁⟩ := takes_ty ok one (n :: l :: (back ++ rest)) s ty no_star holds
  obtain ⟨g, s₂, read, same, holds₂⟩ := accepts_slots known fits back rest s₁ described trivial
    holds₁
  refine ⟨g, s₂, ?_, same, holds₂⟩
  rw [readSignature_eq]
  simp only [List.append_assoc, List.singleton_append, reads_bind, reads_demand, reads_expect]
  exact ⟨ret, _, s₁, readTy, name, _, s₁, ⟨n, rfl, by rw [named], rfl⟩, (), _, s₁,
    ⟨l, rfl, paren, rfl⟩, read⟩

end

end BlockTally.Listing
