import BlockTally.Listing.Written
import BlockTally.Proofs.Listing.Spells
import BlockTally.Wellformed
import Mathlib.Data.List.Forall2

/-! The tokens of a written body. Main statements: `spells_operation`, `spells_block`. -/
namespace BlockTally

def Function.valueName (f : Function) (id : ValueId) : String :=
  ((f.value? id).map (·.name)).getD ""

def Function.blockName (f : Function) (id : BlockId) : String :=
  ((f.block? id).map (·.name)).getD ""

theorem Constant.text_int {width : UInt32} (wide : width ≠ 1) (value : Int64) :
    (Constant.int width value).text = toString value.toInt := by
  unfold text
  split
  · next same => exact absurd (Constant.int.inj same).1 wide
  · next same => rw [(Constant.int.inj same).2]
  all_goals contradiction

namespace Listing
open Text

/-- The text exists and has these tokens. -/
def Writes (text : Option String) (toks : List Token) : Prop :=
  ∃ s, text = some s ∧ Spells Ends s toks

/-- Parts with commas between them. -/
def separated : List (List Token) → List Token
  | [] => []
  | first :: rest => first ++ rest.flatMap ([.punct .comma] ++ ·)

private theorem separated_cons_cons (a b : List Token) (rest : List (List Token)) :
    separated (a :: b :: rest) = a ++ [.punct .comma] ++ separated (b :: rest) := by
  simp [separated]

private theorem spells_separated {texts : List String} {parts : List (List Token)}
    (each : List.Forall₂ (Spells Ends) texts parts) :
    Spells Ends (", ".intercalate texts) (separated parts) := by
  induction each with
  | nil => exact spells_empty
  | @cons text part texts parts first rest ih =>
    cases rest with
    | nil => simpa [separated] using first
    | cons =>
      rw [String.intercalate_cons_cons, separated_cons_cons]
      exact (first.closed spells_comma (by decide) (ends_cons (by decide))).next ih

private theorem writes_all {α : Type} {text : α → Option String} {toks : α → List Token}
    {xs : List α} (each : ∀ x ∈ xs, Writes (text x) (toks x)) :
    ∃ texts, xs.mapM text = some texts ∧ List.Forall₂ (Spells Ends) texts (xs.map toks) := by
  induction xs with
  | nil => exact ⟨[], rfl, .nil⟩
  | cons x xs ih =>
    obtain ⟨s, here, spells⟩ := each x List.mem_cons_self
    obtain ⟨texts, there, more⟩ := ih fun y mem => each y (List.mem_cons_of_mem _ mem)
    exact ⟨s :: texts, by rw [List.mapM_cons, here, there]; rfl, .cons spells more⟩

/-! Operands. -/

def constantToken : Constant → Token
  | .int width value =>
    if width = 1 then .word (if value = 0 then "false" else "true") else .int value
  | .null => .word "null"
  | .undef => .word "undef"
  | .poison => .word "poison"

theorem spells_constant (c : Constant) : Spells Ends c.text [constantToken c] := by
  cases c with
  | int width value =>
    by_cases bit : width = 1
    · subst bit
      unfold Constant.text constantToken
      by_cases zero : value = 0
      · simpa [zero] using @spells_word "false" (by decide)
      · simpa [zero] using @spells_word "true" (by decide)
    · rw [Constant.text_int bit, constantToken, if_neg bit]
      exact spells_int value
  | null => exact spells_word (by decide)
  | undef => exact spells_word (by decide)
  | poison => exact spells_word (by decide)

def alignTokens : Option UInt32 → List Token
  | some n => [.punct .comma, .word "align", .int (Int64.ofNat n.toNat)]
  | none => []

theorem ends_align (align : Option UInt32) : Ends (alignText align).toList := by
  cases align with
  | none => exact Ends.nil
  | some n =>
    rw [alignText, String.toList_append]
    exact ends_cons (by decide)

theorem spells_align (align : Option UInt32) : Spells Ends (alignText align) (alignTokens align) := by
  cases align with
  | none => exact spells_empty
  | some n =>
    have bound := n.toNat_lt
    have number := spells_int (Int64.ofNat n.toNat)
    rw [Int64.toInt_ofNat_of_lt (by omega)] at number
    exact (spells_comma.next (@spells_keyword "align" (by decide))).next number

section
variable (m : Module) (f : Function)

def globalName (id : GlobalId) : String := ((m.global? id).map (·.name)).getD ""

def functionName (id : FuncId) : String := ((m.function? id).map (·.name)).getD ""

def operandToken : Operand → Token
  | .value id => .localName (f.valueName id)
  | .global id => .globalName (globalName m id)
  | .function id => .globalName (functionName m id)
  | .constant c => constantToken c

/-- The operand is in its table, under a name that can be written. -/
def OperandKnown : Operand → Prop
  | .value id => ∃ v, f.value? id = some v ∧ Unquoted v.name
  | .global id => ∃ g, m.global? id = some g ∧ Unquoted g.name
  | .function id => ∃ callee, m.function? id = some callee ∧ Unquoted callee.name
  | .constant _ => True

def BlockKnown (id : BlockId) : Prop := ∃ b, f.block? id = some b ∧ Unquoted b.name

variable {m f}

private theorem writes_value {id : ValueId} (known : ∃ v, f.value? id = some v ∧ Unquoted v.name) :
    Writes (valueText f id) [.localName (f.valueName id)] := by
  obtain ⟨v, here, unquoted⟩ := known
  have spells := spells_localName unquoted
  exact ⟨_, by rw [valueText, here]; rfl, by rwa [Function.valueName, here]⟩

private theorem writes_operand {o : Operand} (known : OperandKnown m f o) :
    Writes (operandText m f o) [operandToken m f o] := by
  cases o with
  | value id => exact writes_value known
  | global id =>
    obtain ⟨g, here, unquoted⟩ := known
    have spells := spells_globalName unquoted
    exact ⟨_, by rw [operandText, here]; rfl, by rwa [operandToken, globalName, here]⟩
  | function id =>
    obtain ⟨g, here, unquoted⟩ := known
    have spells := spells_globalName unquoted
    exact ⟨_, by rw [operandText, here]; rfl, by rwa [operandToken, functionName, here]⟩
  | constant c => exact ⟨c.text, rfl, spells_constant c⟩

private theorem writes_block {id : BlockId} (known : BlockKnown f id) :
    Writes (blockText f id) [.localName (f.blockName id)] := by
  obtain ⟨b, here, unquoted⟩ := known
  have spells := spells_localName unquoted
  exact ⟨_, by rw [blockText, here]; rfl, by rwa [Function.blockName, here]⟩

def labelTokens (f : Function) (id : BlockId) : List Token :=
  [.word "label"] ++ [.localName (f.blockName id)]

private theorem writes_label {id : BlockId} (known : BlockKnown f id) :
    Writes (labelText f id) (labelTokens f id) := by
  obtain ⟨text, here, spells⟩ := writes_block known
  exact ⟨_, by rw [labelText, here]; rfl, (@spells_keyword "label" (by decide)).next spells⟩

end

section
variable (m : Module) (f : Function)

def pairTokens (ty : Ty) (lhs rhs : Operand) : List Token :=
  [.word ty.text] ++ [operandToken m f lhs] ++ [.punct .comma] ++ [operandToken m f rhs]

def signatureTokens (sig : Signature) : List Token :=
  [.word sig.ret.text] ++ [.punct .lparen] ++
    separated (sig.params.map (fun ty => [.word ty.text]) ++
      if sig.variadic then [[.punct .ellipsis]] else []) ++ [.punct .rparen]

/-- The function that is called directly, if it takes more arguments than it names. -/
def variadicCallee? (site : CallSite) : Option Function :=
  match site.callee with
  | .function id => (m.function? id).filter (·.variadic)
  | _ => none

def calleeTyTokens (site : CallSite) : List Token :=
  match variadicCallee? m site with
  | some callee => signatureTokens callee.signature
  | none => [.word site.ret.text]

def argTokens (arg : Ty × Operand) : List Token := [.word arg.1.text] ++ [operandToken m f arg.2]

def callSiteTokens (site : CallSite) : List Token :=
  calleeTyTokens m site ++ [operandToken m f site.callee] ++ [.punct .lparen] ++
    separated (site.args.map (argTokens m f)) ++
    [.punct .rparen]

def edgeTokens (edge : Operand × BlockId) : List Token :=
  [.punct .lbracket] ++ [operandToken m f edge.1] ++ [.punct .comma] ++
    [.localName (f.blockName edge.2)] ++ [.punct .rbracket]

def flagTokens (nuw nsw : Bool) : List Token :=
  (if nuw then [.word "nuw"] else []) ++ (if nsw then [.word "nsw"] else [])

def operationTokens : Operation → List Token
  | .alloca ty align => [.word "alloca"] ++ [.word ty.text] ++ alignTokens align
  | .load ty ptr align =>
    [.word "load"] ++ [.word ty.text] ++ [.punct .comma, .word "ptr"] ++ [operandToken m f ptr] ++
      alignTokens align
  | .store ty value ptr align =>
    [.word "store"] ++ [.word ty.text] ++ [operandToken m f value] ++ [.punct .comma, .word "ptr"] ++
      [operandToken m f ptr] ++ alignTokens align
  | .arith op ty lhs rhs nuw nsw =>
    [.word op.mnemonic] ++ flagTokens nuw nsw ++ pairTokens m f ty lhs rhs
  | .icmp pred ty lhs rhs =>
    [.word "icmp"] ++ [.word pred.mnemonic] ++ pairTokens m f ty lhs rhs
  | .convert op source value target =>
    [.word op.mnemonic] ++ [.word source.text] ++ [operandToken m f value] ++ [.word "to"] ++
      [.word target.text]
  | .phi ty incoming =>
    [.word "phi"] ++ [.word ty.text] ++ separated (incoming.map (edgeTokens m f))
  | .call site => [.word "call"] ++ callSiteTokens m f site
  | .invoke site normal unwind =>
    [.word "invoke"] ++ callSiteTokens m f site ++ [.word "to"] ++ labelTokens f normal ++
      [.word "unwind"] ++ labelTokens f unwind
  | .br dest => [.word "br"] ++ labelTokens f dest
  | .condBr cond thenDest elseDest =>
    [.word "br", .word "i1"] ++ [operandToken m f cond] ++ [.punct .comma] ++
      labelTokens f thenDest ++ [.punct .comma] ++ labelTokens f elseDest
  | .ret ty (some value) => [.word "ret"] ++ [.word ty.text] ++ [operandToken m f value]
  | .ret _ none => [.word "ret", .word "void"]
  | .unreachable => [.word "unreachable"]

def resultTokens (f : Function) : Option ValueId → List Token
  | some id => [.localName (f.valueName id)] ++ [.punct .equals]
  | none => []

def dbgTokens : Option UInt32 → List Token
  | some node => [.punct .comma, .nodeName "dbg"] ++ [.nodeRef node]
  | none => []

def instructionTokens (inst : Instruction) : List Token :=
  resultTokens f inst.result ++ operationTokens m f inst.op ++ dbgTokens inst.dbg

def blockLabelTokens (isEntry : Bool) (b : Block) : List Token :=
  if isEntry && b.name.isEmpty then [] else [.label b.name]

def blockTokens (isEntry : Bool) (b : Block) : List Token :=
  blockLabelTokens isEntry b ++ b.insts.flatMap (instructionTokens m f)

/-- Everything that the operation names is in its table. -/
structure OperationKnown (op : Operation) : Prop where
  operands : ∀ o ∈ op.operands, OperandKnown m f o
  targets : ∀ id ∈ op.targets, BlockKnown f id

structure InstructionKnown (inst : Instruction) : Prop extends OperationKnown m f inst.op where
  result : ∀ id, inst.result = some id → ∃ v, f.value? id = some v ∧ Unquoted v.name

end

section
variable {m : Module} {f : Function}

theorem ends_space {text : String} : Ends (" " ++ text).toList := by
  rw [String.toList_append]
  exact ends_cons (by decide)

theorem Spells.spaced {a b : String} {ta tb : List Token} (first : Spells Ends a ta)
    (second : Spells Ends b tb) : Spells Ends (a ++ " " ++ b) (ta ++ tb) := by
  have blank := first.closed spells_space (by decide) (ends_cons (by decide))
  rw [List.append_nil] at blank
  exact blank.next second

theorem Spells.comma {a b : String} {ta tb : List Token} (first : Spells Ends a ta)
    (second : Spells Ends b tb) : Spells Ends (a ++ ", " ++ b) (ta ++ [.punct .comma] ++ tb) :=
  (first.closed spells_comma (by decide) (ends_cons (by decide))).next second

/-- A pointer behind a comma. -/
theorem Spells.pointer {a b : String} {ta tb : List Token} (first : Spells Ends a ta)
    (second : Spells Ends b tb) :
    Spells Ends (a ++ ", ptr " ++ b) (ta ++ [.punct .comma, .word "ptr"] ++ tb) := by
  have ptr := spells_comma.next (@spells_keyword "ptr" (by decide))
  exact (first.closed ptr (by decide) (ends_cons (by decide))).next second

/-- A word between blanks. -/
theorem Spells.around {a b : String} {ta tb : List Token} (first : Spells Ends a ta)
    (word : String) (known : isWord word.toList = true) (second : Spells Ends b tb) :
    Spells Ends (a ++ (" " ++ word ++ " ") ++ b) (ta ++ [.word word] ++ tb) := by
  have middle := (first.spaced (spells_word known)).spaced second
  simpa only [String.append_assoc] using middle

private theorem writes_pair (ty : Ty) {lhs rhs : Operand} (left : OperandKnown m f lhs)
    (right : OperandKnown m f rhs) : Writes (pairText m f ty lhs rhs) (pairTokens m f ty lhs rhs) := by
  obtain ⟨l, here, spells⟩ := writes_operand left
  obtain ⟨r, there, spells'⟩ := writes_operand right
  exact ⟨_, by rw [pairText, here, there]; rfl, ((spells_ty ty).spaced spells).comma spells'⟩

private theorem spells_signature (sig : Signature) :
    Spells Ends sig.text (signatureTokens sig) := by
  have params : List.Forall₂ (Spells Ends) (sig.params.map Ty.text)
      (sig.params.map fun ty => [.word ty.text]) := by
    rw [List.forall₂_map_left_iff, List.forall₂_map_right_iff, List.forall₂_same]
    exact fun ty _ => spells_ty ty
  have ellipsis : List.Forall₂ (Spells Ends) (if sig.variadic then ["..."] else [])
      (if sig.variadic then [[.punct .ellipsis]] else []) := by
    cases sig.variadic with
    | true => exact .cons spells_ellipsis .nil
    | false => exact .nil
  have opening := (spells_ty sig.ret).closed (spells_space.next spells_lparen) (by decide)
    (ends_cons (by decide))
  have inside := spells_separated (List.rel_append params ellipsis)
  exact ((opening.next inside).closed spells_rparen (by decide) (ends_cons (by decide))).imp
    fun _ _ => trivial

private theorem writes_calleeTy {site : CallSite} (known : OperandKnown m f site.callee) :
    Writes (calleeTyText m site) (calleeTyTokens m site) := by
  unfold calleeTyText calleeTyTokens variadicCallee?
  cases callee : site.callee with
  | function id =>
    rw [callee] at known
    obtain ⟨g, here, -⟩ := known
    simp only [here]
    cases variadic : g.variadic with
    | true =>
      exact ⟨_, by simp [variadic]; rfl, by simpa [Option.filter, variadic] using spells_signature _⟩
    | false =>
      exact ⟨_, by simp [variadic]; rfl, by simpa [Option.filter, variadic] using spells_ty _⟩
  | value | global | constant => exact ⟨_, rfl, spells_ty _⟩

private theorem writes_callSite (site : CallSite) (callee : OperandKnown m f site.callee)
    (args : ∀ arg ∈ site.args, OperandKnown m f arg.2) :
    Writes (callSiteText m f site) (callSiteTokens m f site) := by
  obtain ⟨ty, here, first⟩ := writes_calleeTy callee
  obtain ⟨target, there, second⟩ := writes_operand callee
  have each : ∀ arg ∈ site.args, Writes (do return arg.1.text ++ " " ++ (← operandText m f arg.2))
      (argTokens m f arg) := by
    intro arg mem
    obtain ⟨text, found, spells⟩ := writes_operand (args arg mem)
    exact ⟨_, by rw [found]; rfl, (spells_ty arg.1).spaced spells⟩
  obtain ⟨parts, behind, third⟩ := writes_all each
  have opened := (first.spaced second).closed spells_lparen (by decide) (ends_cons (by decide))
  have inside := opened.next (spells_separated third)
  refine ⟨_, ?_, (inside.closed spells_rparen (by decide) (ends_cons (by decide))).imp
    fun _ _ => trivial⟩
  unfold callSiteText
  simp only [behind, here, there]
  rfl

private theorem writes_edge {edge : Operand × BlockId} (value : OperandKnown m f edge.1)
    (block : BlockKnown f edge.2) : Writes (edgeText m f edge) (edgeTokens m f edge) := by
  obtain ⟨v, here, spells⟩ := writes_operand value
  obtain ⟨b, there, spells'⟩ := writes_block block
  have opening := (spells_punct (by decide) (c := '[') rfl).next spells_space
  have closing := spells_space.next (spells_punct (by decide) (c := ']') rfl)
  refine ⟨_, by rw [edgeText, here, there]; rfl, ?_⟩
  exact (((opening.next spells).comma spells').closed closing (by decide)
    (ends_cons (by decide))).imp fun _ _ => trivial

private theorem isWord_mnemonic (op : Arith) : isWord op.mnemonic.toList = true := by
  cases op <;> decide

private theorem isWord_conversion (op : Conversion) : isWord op.mnemonic.toList = true := by
  cases op <;> decide

private theorem isWord_comparison (pred : Comparison) : isWord pred.mnemonic.toList = true := by
  cases pred <;> decide

private theorem spells_flags {word : String} (known : isWord word.toList = true) (nuw nsw : Bool) :
    Spells Ends (word ++ (if nuw then " nuw" else "") ++ if nsw then " nsw" else "")
      ([.word word] ++ flagTokens nuw nsw) := by
  have plain := spells_word known
  have flag : ∀ {text : String} {toks : List Token} (other : String) (set : Bool),
      isWord other.toList = true → Spells Ends text toks →
      Spells Ends (text ++ if set then " " ++ other else "")
        (toks ++ if set then [.word other] else []) := by
    intro text toks other set letters spells
    cases set with
    | true => simpa only [if_true, ← String.append_assoc] using spells.spaced (spells_word letters)
    | false => simpa using spells
  have both := flag "nsw" nsw (by decide) (flag "nuw" nuw (by decide) plain)
  rw [List.append_assoc] at both
  exact both

private theorem writes_load (ty : Ty) {ptr : Operand} (align : Option UInt32)
    (known : OperandKnown m f ptr) :
    Writes (operationText m f (.load ty ptr align)) (operationTokens m f (.load ty ptr align)) := by
  obtain ⟨p, here, spells⟩ := writes_operand known
  refine ⟨_, by rw [operationText, here]; rfl, ?_⟩
  have front := (@spells_keyword "load" (by decide)).next (spells_ty ty)
  exact (front.pointer spells).ends (spells_align align) (ends_align align)

private theorem writes_store (ty : Ty) {value ptr : Operand} (align : Option UInt32)
    (known : OperandKnown m f value) (known' : OperandKnown m f ptr) :
    Writes (operationText m f (.store ty value ptr align))
      (operationTokens m f (.store ty value ptr align)) := by
  obtain ⟨v, here, spells⟩ := writes_operand known
  obtain ⟨p, there, spells'⟩ := writes_operand known'
  refine ⟨_, by rw [operationText, here, there]; rfl, ?_⟩
  have front := ((@spells_keyword "store" (by decide)).next (spells_ty ty)).spaced spells
  exact (front.pointer spells').ends (spells_align align) (ends_align align)

private theorem writes_arith (op : Arith) (ty : Ty) {lhs rhs : Operand} (nuw nsw : Bool)
    (left : OperandKnown m f lhs) (right : OperandKnown m f rhs) :
    Writes (operationText m f (.arith op ty lhs rhs nuw nsw))
      (operationTokens m f (.arith op ty lhs rhs nuw nsw)) := by
  obtain ⟨p, here, spells⟩ := writes_pair ty left right
  exact ⟨_, by rw [operationText, here]; rfl,
    (spells_flags (isWord_mnemonic op) nuw nsw).spaced spells⟩

private theorem writes_icmp (pred : Comparison) (ty : Ty) {lhs rhs : Operand}
    (left : OperandKnown m f lhs) (right : OperandKnown m f rhs) :
    Writes (operationText m f (.icmp pred ty lhs rhs))
      (operationTokens m f (.icmp pred ty lhs rhs)) := by
  obtain ⟨p, here, spells⟩ := writes_pair ty left right
  have front := (@spells_keyword "icmp" (by decide)).next (spells_word (isWord_comparison pred))
  exact ⟨_, by rw [operationText, here]; rfl, front.spaced spells⟩

private theorem writes_convert (op : Conversion) (source target : Ty) {value : Operand}
    (known : OperandKnown m f value) :
    Writes (operationText m f (.convert op source value target))
      (operationTokens m f (.convert op source value target)) := by
  obtain ⟨v, here, spells⟩ := writes_operand known
  refine ⟨_, by rw [operationText, here]; rfl, ?_⟩
  have front := ((spells_word (isWord_conversion op)).spaced (spells_ty source)).spaced spells
  exact front.around "to" (by decide) (spells_ty target)

private theorem writes_phi (ty : Ty) {incoming : List (Operand × BlockId)}
    (known : ∀ edge ∈ incoming, OperandKnown m f edge.1 ∧ BlockKnown f edge.2) :
    Writes (operationText m f (.phi ty incoming)) (operationTokens m f (.phi ty incoming)) := by
  obtain ⟨parts, here, spells⟩ := writes_all fun edge mem =>
    writes_edge (known edge mem).1 (known edge mem).2
  have front := (@spells_keyword "phi" (by decide)).next (spells_ty ty)
  exact ⟨_, by rw [operationText, here]; rfl, front.spaced (spells_separated spells)⟩

private theorem writes_invoke {site : CallSite} {normal unwind : BlockId}
    (written : Writes (callSiteText m f site) (callSiteTokens m f site))
    (there : BlockKnown f normal) (there' : BlockKnown f unwind) :
    Writes (operationText m f (.invoke site normal unwind))
      (operationTokens m f (.invoke site normal unwind)) := by
  obtain ⟨text, here, spells⟩ := written
  obtain ⟨l, normally, spells'⟩ := writes_label there
  obtain ⟨r, otherwise, spells''⟩ := writes_label there'
  refine ⟨_, by rw [operationText, here, normally, otherwise]; rfl, ?_⟩
  have front := (@spells_keyword "invoke" (by decide)).next spells
  exact (front.around "to" (by decide) spells').around "unwind" (by decide) spells''

private theorem writes_condBr {cond : Operand} {thenDest elseDest : BlockId}
    (known : OperandKnown m f cond)
    (there : BlockKnown f thenDest) (there' : BlockKnown f elseDest) :
    Writes (operationText m f (.condBr cond thenDest elseDest))
      (operationTokens m f (.condBr cond thenDest elseDest)) := by
  obtain ⟨c, here, spells⟩ := writes_operand known
  obtain ⟨l, taken, spells'⟩ := writes_label there
  obtain ⟨r, passed, spells''⟩ := writes_label there'
  refine ⟨_, by rw [operationText, here, taken, passed]; rfl, ?_⟩
  have front := (@spells_keyword "br" (by decide)).next (@spells_keyword "i1" (by decide))
  exact ((front.next spells).comma spells').comma spells''

private theorem writes_return (ty : Ty) {value : Option Operand}
    (known : ∀ v ∈ value, OperandKnown m f v) :
    Writes (operationText m f (.ret ty value)) (operationTokens m f (.ret ty value)) := by
  cases value with
  | none =>
    exact ⟨_, rfl, (@spells_keyword "ret" (by decide)).next (@spells_word "void" (by decide))⟩
  | some value =>
    obtain ⟨v, here, spells⟩ := writes_operand (known value rfl)
    have front := (@spells_keyword "ret" (by decide)).next (spells_ty ty)
    exact ⟨_, by rw [operationText, here]; rfl, front.spaced spells⟩

private theorem writes_operation {op : Operation} (known : OperationKnown m f op) :
    Writes (operationText m f op) (operationTokens m f op) := by
  obtain ⟨operands, targets⟩ := known
  have site : ∀ site : CallSite, (∀ o ∈ site.callee :: site.args.map (·.2), o ∈ op.operands) →
      Writes (callSiteText m f site) (callSiteTokens m f site) := fun site mem =>
    writes_callSite site (operands _ (mem _ List.mem_cons_self)) fun arg among =>
      operands _ (mem _ (List.mem_cons_of_mem _ (List.mem_map_of_mem among)))
  cases op with
  | alloca ty align =>
    exact ⟨_, rfl, ((@spells_keyword "alloca" (by decide)).next (spells_ty ty)).ends
      (spells_align align) (ends_align align)⟩
  | load ty ptr align =>
    exact writes_load ty align (operands ptr (by simp [Operation.operands]))
  | store ty value ptr align =>
    exact writes_store ty align (operands value (by simp [Operation.operands]))
      (operands ptr (by simp [Operation.operands]))
  | arith op ty lhs rhs nuw nsw =>
    exact writes_arith op ty nuw nsw (operands lhs (by simp [Operation.operands]))
      (operands rhs (by simp [Operation.operands]))
  | icmp pred ty lhs rhs =>
    exact writes_icmp pred ty (operands lhs (by simp [Operation.operands]))
      (operands rhs (by simp [Operation.operands]))
  | convert op source value target =>
    exact writes_convert op source target (operands value (by simp [Operation.operands]))
  | phi ty incoming =>
    refine writes_phi ty fun edge mem => ⟨operands _ ?_, targets _ ?_⟩
    · simpa [Operation.operands] using ⟨edge.2, mem⟩
    · simpa [Operation.targets, Operation.successors] using ⟨edge.1, mem⟩
  | call callSite =>
    obtain ⟨text, here, spells⟩ := site callSite fun _ mem => mem
    exact ⟨_, by rw [operationText, here]; rfl, (@spells_keyword "call" (by decide)).next spells⟩
  | invoke callSite normal unwind =>
    exact writes_invoke (site callSite fun _ mem => mem)
      (targets normal (by simp [Operation.targets, Operation.successors]))
      (targets unwind (by simp [Operation.targets, Operation.successors]))
  | br dest =>
    obtain ⟨l, here, spells⟩ := writes_label (targets dest (by
      simp [Operation.targets, Operation.successors]))
    exact ⟨_, by rw [operationText, here]; rfl, (@spells_keyword "br" (by decide)).next spells⟩
  | condBr cond thenDest elseDest =>
    exact writes_condBr (operands cond (by simp [Operation.operands]))
      (targets thenDest (by simp [Operation.targets, Operation.successors]))
      (targets elseDest (by simp [Operation.targets, Operation.successors]))
  | ret ty value =>
    refine writes_return ty fun v mem => operands v ?_
    simp [Operation.operands, Option.mem_def.mp mem]
  | unreachable => exact ⟨_, rfl, spells_word (by decide)⟩

def resultText (f : Function) : Option ValueId → Option String
  | some id => (· ++ " = ") <$> valueText f id
  | none => some ""

def dbgText : Option UInt32 → String
  | some node => ", !dbg !" ++ toString node.toNat
  | none => ""

theorem instructionText_eq (m : Module) (f : Function) (inst : Instruction) :
    instructionText m f inst = (resultText f inst.result).bind fun result =>
      (operationText m f inst.op).map ("  " ++ result ++ · ++ dbgText inst.dbg) := by
  unfold instructionText
  cases inst.result <;> cases inst.dbg <;> cases operationText m f inst.op <;> rfl

private theorem writes_result {result : Option ValueId}
    (known : ∀ id, result = some id → ∃ v, f.value? id = some v ∧ Unquoted v.name) :
    ∃ text, resultText f result = some text ∧ Spells Anywhere text (resultTokens f result) := by
  cases result with
  | none => exact ⟨"", rfl, spells_empty⟩
  | some id =>
    obtain ⟨v, here, spells⟩ := writes_value (known id rfl)
    have equals := (spells_space.next (spells_punct (by decide) (c := '=') rfl)).next spells_space
    exact ⟨_, by rw [resultText, here]; rfl, spells.closed equals (by decide) (ends_cons (by decide))⟩

private theorem ends_dbg (dbg : Option UInt32) : Ends (dbgText dbg).toList := by
  cases dbg with
  | none => exact Ends.nil
  | some node =>
    rw [dbgText, String.toList_append]
    exact ends_cons (by decide)

private theorem spells_dbg (dbg : Option UInt32) : Spells Ends (dbgText dbg) (dbgTokens dbg) := by
  cases dbg with
  | none => exact spells_empty
  | some node =>
    have word : Spells Ends "!dbg" [.nodeName "dbg"] :=
      (@Spelling.nodeName 'd' ['b', 'g'] (by decide) (by decide)).spells rfl
    have attached := (spells_comma.next word).spaced (spells_nodeRef node)
    rw [← String.append_assoc] at attached
    exact attached

private theorem writes_instruction {inst : Instruction} (known : InstructionKnown m f inst) :
    Writes (instructionText m f inst) (instructionTokens m f inst) := by
  obtain ⟨front, here, spells⟩ := writes_result known.result
  obtain ⟨op, there, spells'⟩ := writes_operation known.toOperationKnown
  have indent : Spells Anywhere "  " [] := spells_space.next spells_space
  refine ⟨_, by rw [instructionText_eq, here, there]; rfl, ?_⟩
  exact ((indent.next spells).next spells').ends (spells_dbg inst.dbg) (ends_dbg inst.dbg)

private theorem spells_lines {texts : List String} {parts : List (List Token)}
    (each : List.Forall₂ (Spells Ends) texts parts) :
    Spells Anywhere (.join (texts.map (· ++ "\n"))) parts.flatten := by
  induction each with
  | nil => exact spells_empty
  | @cons text part texts parts first rest ih =>
    have line := first.closed spells_break (by decide) (ends_cons (by decide))
    rw [List.append_nil] at line
    have whole := line.next ih
    simpa only [List.map_cons, String.join_cons, List.flatten_cons] using whole

theorem writes_blockLines (isEntry : Bool) {b : Block} (name : Unquoted b.name)
    (known : ∀ inst ∈ b.insts, InstructionKnown m f inst) :
    ∃ text, blockLines m f isEntry b = some text ∧
      Spells Anywhere text (blockTokens m f isEntry b) := by
  obtain ⟨texts, here, each⟩ := writes_all fun inst mem => writes_instruction (known inst mem)
  have label : Spells Anywhere (labelLine isEntry b) (blockLabelTokens isEntry b) := by
    unfold labelLine blockLabelTokens
    split
    · exact spells_empty
    · have line := (spells_label name).closed spells_break (by decide) (ends_cons (by decide))
      simpa [String.append_assoc] using line
  refine ⟨_, by rw [blockLines, here]; rfl, ?_⟩
  rw [blockTokens, List.flatMap_def]
  exact label.next (spells_lines each)

end

end Listing

end BlockTally
