import BlockTally.Listing.Body
import BlockTally.Proofs.Listing.Numbering
import BlockTally.Proofs.Listing.Phrases
import Mathlib.Logic.Function.Basic

/-! The table of values while a body is read. Main statements: `takes_operand`, `takes_result`. -/
namespace BlockTally.Listing
open Read

/-- The values in `seen` are in the table in this order. Those in `done` are as they will stay; the
others wait for their definition. -/
structure Entered (m : Module) (f : Function) (seen done : List ValueId) (scope : Scope) : Prop where
  defined : ∀ id ∈ done, id ∈ seen
  values : ∃ tys : ValueId → Ty,
    scope.function.values = seen.map (f.entry tys) ∧ ∀ id ∈ done, tys id = f.writtenTy m id
  pending : scope.pending.map (·.1) = (seen.filter (· ∉ done)).map f.writtenName

section
variable {m : Module} {f : Function} {seen done : List ValueId} {scope : Scope} {id : ValueId}

theorem writtenName_eq (body : f.isDeclaration = false) : f.writtenName = f.valueName := by
  funext id
  rw [Function.writtenName, body]
  rfl

theorem Entered.names (entered : Entered m f seen done scope) :
    scope.function.values.map (·.name) = seen.map f.writtenName := by
  obtain ⟨tys, values, -⟩ := entered.values
  rw [values, List.map_map]
  rfl

private theorem findIdx?_name {name : ValueId → String}
    (injective : ∀ a ∈ seen, name a = name id → a = id) :
    seen.findIdx? (fun a => name a == name id) =
      if id ∈ seen then some (seen.idxOf id) else none := by
  induction seen with
  | nil => rfl
  | cons a seen ih =>
    have later := ih fun b mem => injective b (List.mem_cons_of_mem _ mem)
    rw [List.findIdx?_cons, List.idxOf_cons]
    by_cases same : a = id
    · simp [same]
    · have other : name a ≠ name id := fun names => same (injective a List.mem_cons_self names)
      have apart : id ≠ a := Ne.symm same
      have unlike : (a == id) = false := beq_false_of_ne same
      simp only [other, beq_iff_eq, if_false, later, List.mem_cons, apart, false_or, unlike]
      by_cases mem : id ∈ seen
      · simp [mem]
      · simp [mem]

theorem Entered.valueNamed? (entered : Entered m f seen done scope) (numbered : f.Numbered)
    (body : f.isDeclaration = false) (known : ∀ a ∈ seen, (f.value? a).isSome)
    (here : (f.value? id).isSome) :
    scope.function.valueNamed? (f.valueName id) =
      if id ∈ seen then some ⟨seen.idxOf id⟩ else none := by
  have names : seen.findIdx? (fun a => f.valueName a == f.valueName id) =
      if id ∈ seen then some (seen.idxOf id) else none :=
    findIdx?_name fun a mem => numbered.name_injective (known a mem) here
  have table := entered.names
  rw [writtenName_eq body] at table
  have found : scope.function.values.findIdx? (fun v => v.name == f.valueName id) =
      seen.findIdx? fun a => f.valueName a == f.valueName id := by
    have both := List.findIdx?_map (p := (· == f.valueName id)) (f := fun v : Value => v.name)
      (l := scope.function.values)
    rw [table, List.findIdx?_map] at both
    exact both.symm
  rw [Function.valueNamed?, found, names]
  split <;> rfl

/-- One more line of the table. -/
theorem Entered.append (entered : Entered m f seen done scope) (new : id ∉ seen)
    (value : id ∉ f.params) (body : f.isDeclaration = false) {ty : Ty} {later : List ValueId}
    {pending : List (String × Nat)} (more : ∀ a ∈ later, a ∈ done ∨ a = id ∧ ty = f.writtenTy m id)
    (waits : pending.map (·.1) = ((seen ++ [id]).filter (· ∉ later)).map f.writtenName) :
    Entered m f (seen ++ [id]) later
      { function := { scope.function with
          values := scope.function.values ++ [⟨f.valueName id, ty, .instruction⟩] }
        pending } := by
  obtain ⟨defined, ⟨tys, values, final⟩, -⟩ := entered
  refine ⟨?_, ⟨Function.update tys id ty, ?_, ?_⟩, waits⟩
  · intro a mem
    rcases more a mem with old | ⟨rfl, -⟩
    · exact List.mem_append_left _ (defined a old)
    · exact List.mem_append_right _ (List.mem_singleton_self a)
  · have old : seen.map (f.entry tys) = seen.map (f.entry (Function.update tys id ty)) := by
      refine List.map_congr_left fun a mem => ?_
      have other : a ≠ id := fun same => new (same ▸ mem)
      rw [Function.entry, Function.entry, Function.update_of_ne other]
    rw [values, old, List.map_append, List.map_singleton]
    simp [Function.entry, writtenName_eq body, value]
  · intro a mem
    by_cases same : a = id
    · rw [same, Function.update_self]
      rcases more a mem with old | ⟨-, known⟩
      · exact absurd (defined a old) (same ▸ new)
      · exact known
    · rw [Function.update_of_ne same]
      rcases more a mem with old | ⟨here, -⟩
      · exact final a old
      · exact absurd here same

theorem Entered.mention (entered : Entered m f seen done scope) (new : id ∉ seen)
    (value : id ∉ f.params) (body : f.isDeclaration = false) (ty : Ty) (start : Nat) :
    Entered m f (seen ++ [id]) done
      { function := { scope.function with
          values := scope.function.values ++ [⟨f.valueName id, ty, .instruction⟩] }
        pending := scope.pending ++ [(f.valueName id, start)] } := by
  have waiting : id ∉ done := fun mem => new (entered.defined id mem)
  refine entered.append new value body (fun a mem => .inl mem) ?_
  simp [entered.pending, List.filter_append, waiting, writtenName_eq body]

/-- The first mention of a value may be its definition. -/
theorem Entered.introduce (entered : Entered m f seen done scope) (new : id ∉ seen)
    (value : id ∉ f.params) (body : f.isDeclaration = false) :
    Entered m f (seen ++ [id]) (done ++ [id])
      { scope with function := { scope.function with
          values := scope.function.values ++
            [⟨f.valueName id, f.writtenTy m id, .instruction⟩] } } := by
  refine entered.append new value body ?_ ?_
  · intro a mem
    exact (List.mem_append.mp mem).imp_right fun last => ⟨List.mem_singleton.mp last, rfl⟩
  · have others : seen.filter (· ∉ done ++ [id]) = seen.filter (· ∉ done) := by
      refine List.filter_congr fun a mem => ?_
      have other : a ≠ id := fun same => new (same ▸ mem)
      simp [other]
    rw [List.filter_append, others, entered.pending]
    simp

private theorem map_set_idxOf {tys : ValueId → Ty} {ty : Ty} (distinct : seen.Nodup) :
    (seen.map (f.entry tys)).set (seen.idxOf id) { f.entry tys id with ty } =
      seen.map (f.entry (Function.update tys id ty)) := by
  apply List.ext_getElem?
  intro k
  by_cases here : seen.idxOf id = k
  · subst here
    by_cases mem : id ∈ seen
    · have inside := List.idxOf_lt_length_iff.mpr mem
      simp [inside, Function.entry]
    · simp [List.idxOf_eq_length mem]
  · rw [List.getElem?_set_ne here, List.getElem?_map, List.getElem?_map]
    cases found : seen[k]? with
    | none => rfl
    | some a =>
      have other : a ≠ id := by
        intro same
        subst same
        obtain ⟨inside, rfl⟩ := List.getElem?_eq_some_iff.mp found
        exact here (distinct.idxOf_getElem k inside)
      rw [Option.map_some, Option.map_some, Function.entry, Function.entry,
        Function.update_of_ne other]

/-- The definition of a value that was mentioned before. -/
theorem Entered.settle (entered : Entered m f seen done scope) (distinct : seen.Nodup)
    (numbered : f.Numbered) (known : ∀ a ∈ seen, (f.value? a).isSome) (old : id ∈ seen)
    (waiting : id ∉ done) (body : f.isDeclaration = false) :
    ∃ function, scope.function.retype ⟨seen.idxOf id⟩ (f.writtenTy m id) = some function ∧
      (scope.pending.any (·.1 == f.valueName id)) = true ∧
      Entered m f seen (done ++ [id])
        { function, pending := scope.pending.filter (·.1 != f.valueName id) } ∧
      function = { scope.function with values := function.values } := by
  obtain ⟨defined, ⟨tys, values, final⟩, pending⟩ := entered
  rw [writtenName_eq body] at pending
  have here : scope.function.value? ⟨seen.idxOf id⟩ = some (f.entry tys id) := by
    rw [Function.value?, values, List.getElem?_map, List.getElem?_idxOf old]
    rfl
  refine ⟨_, by rw [Function.retype, here]; rfl, ?_, ⟨?_, ?_, ?_⟩, rfl⟩
  · have mem : f.valueName id ∈ scope.pending.map (·.1) := by
      rw [pending]
      exact List.mem_map_of_mem (by simpa [waiting] using old)
    obtain ⟨p, there, name⟩ := List.mem_map.mp mem
    exact List.any_eq_true.mpr ⟨p, there, by simp [name]⟩
  · intro a mem
    rcases List.mem_append.mp mem with before | last
    · exact defined a before
    · exact List.mem_singleton.mp last ▸ old
  · refine ⟨Function.update tys id (f.writtenTy m id), ?_, ?_⟩
    · simp only [values]
      exact map_set_idxOf distinct
    · intro a mem
      by_cases same : a = id
      · rw [same, Function.update_self]
      · rw [Function.update_of_ne same]
        exact final a (by simpa [same] using mem)
  · have names : (scope.pending.filter (·.1 != f.valueName id)).map (·.1) =
        (scope.pending.map (·.1)).filter (· != f.valueName id) := by
      rw [List.filter_map]
      rfl
    rw [names, pending, List.filter_map, List.filter_filter, writtenName_eq body]
    congr 1
    refine List.filter_congr fun a mem => ?_
    have injective := numbered.name_injective (known a mem) (known id old)
    by_cases same : a = id
    · simp [same]
    · have other : f.valueName a ≠ f.valueName id := fun names => same (injective names)
      simp [same, other]

end

/-! Reading with that table. -/

/-- Of the mentions and the results of the body, `uses` and `defs` are still to be read. Besides
its values the function is `g`. -/
structure Midway (m : Module) (f g : Function) (defs uses : List ValueId) (scope : Scope) :
    Prop where
  frame : scope.function = { g with values := scope.function.values }
  entered : ∃ past done, past ++ uses = f.mentions ∧ done ++ defs = f.results ∧
    Entered m f (past.foldl meet f.params) (f.params ++ done) scope

/-- What reading the text of `f` in `m` relies on when the names are looked up in `m'`. -/
structure Resolved (m m' : Module) (f : Function) : Prop where
  numbered : f.Numbered
  body : f.isDeclaration = false
  labels : (f.blocks.map (·.name)).Nodup
  globals : ∀ id g, m.global? id = some g → m'.symbol? g.name = some (.global id)
  functions : ∀ id callee, m.function? id = some callee →
    m'.symbol? callee.name = some (.function id)

section
variable {m m' : Module} {f g : Function} {defs uses : List ValueId} {id : ValueId}

theorem Resolved.known (resolved : Resolved m m' f) {past : List ValueId}
    (split : past ++ uses = f.mentions) :
    ∀ a ∈ past.foldl meet f.params, (f.value? a).isSome := by
  intro a mem
  refine resolved.numbered.known a (List.mem_append.mpr ?_)
  refine (mem_foldl_meet.mp mem).imp_right fun here => ?_
  rw [← split]
  exact List.mem_append_left _ here

private theorem number_of_split {past : List ValueId} (split : past ++ uses = f.mentions)
    (mem : id ∈ past.foldl meet f.params) :
    f.number id = ⟨(past.foldl meet f.params).idxOf id⟩ := by
  refine Function.number_eq ?_ mem
  rw [Function.order, ← split, List.foldl_append]
  exact prefix_foldl_meet _ _

theorem reads_addLocal {start : Nat} {name : String} {ty : Ty} {ts rest : List Lexeme}
    {s s' : Scope} {id : ValueId} :
    Reads (addLocal start name ty) ts s id rest s' ↔
      s.function.valueNamed? name = none ∧ id = ⟨s.function.values.length⟩ ∧ rest = ts ∧
        s' = { s with function := { s.function with
          values := s.function.values ++ [⟨name, ty, .instruction⟩] } } := by
  simp only [addLocal, reads_bind, reads_state, Function.addNamedValue]
  constructor
  · rintro ⟨_, _, _, ⟨rfl, rfl, rfl⟩, read⟩
    split at read
    · rename_i added
      split at added
      · cases added
      · rename_i free
        cases added
        simp only [reads_bind, reads_update, reads_pure] at read
        obtain ⟨_, _, _, ⟨rfl, rfl⟩, rfl, rfl, rfl⟩ := read
        exact ⟨by simpa using free, rfl, rfl, rfl⟩
    · exact absurd read reads_refuseAt
  · rintro ⟨free, rfl, rfl, rfl⟩
    refine ⟨_, _, _, ⟨rfl, rfl, rfl⟩, ?_⟩
    simp only [free, Option.isSome_none, Bool.false_eq_true, if_false, reads_bind, reads_update,
      reads_pure]
    exact ⟨(), _, _, ⟨rfl, rfl⟩, trivial, rfl, rfl⟩

private theorem takes_value (resolved : Resolved m m' f) {ty : Ty} (here : (f.value? id).isSome) :
    Takes (readOperand m'.symbol? ty) [.localName (f.valueName id)] Anything
      (Midway m f g defs (id :: uses)) (.value (f.number id)) (Midway m f g defs uses) := by
  intro ts rest s same _ midway
  obtain ⟨⟨token, start, stop⟩, rfl, token_eq⟩ := List.map_eq_singleton_iff.mp same
  obtain rfl : token = .localName (f.valueName id) := token_eq
  obtain ⟨frame, past, done, split, results, entered⟩ := midway
  have split' : (past ++ [id]) ++ uses = f.mentions := by simpa using split
  have seen : (past ++ [id]).foldl meet f.params = meet (past.foldl meet f.params) id := by
    rw [List.foldl_append]
    rfl
  have number : f.number id = _ := number_of_split split' (by rw [seen]; exact mem_meet.mpr (.inr rfl))
  have lookup := entered.valueNamed? resolved.numbered resolved.body (resolved.known split) here
  simp only [readOperand, reads_bind, reads_peek, List.singleton_append, List.head?_cons]
  by_cases old : id ∈ past.foldl meet f.params
  · rw [if_pos old] at lookup
    rw [seen, meet, if_pos old] at number
    refine ⟨s, ⟨_, _, _, ⟨rfl, rfl, rfl⟩, ?_⟩, frame, past ++ [id], done, split', results, ?_⟩
    · simp only [reads_bind, reads_skip, reads_state]
      refine ⟨(), _, _, ⟨rfl, rfl⟩, _, _, _, ⟨rfl, rfl, rfl⟩, ?_⟩
      simp only [lookup, number, reads_pure, List.tail_cons, and_self]
    · rwa [seen, meet, if_pos old]
  · rw [if_neg old] at lookup
    rw [seen, meet, if_neg old] at number
    have value : id ∉ f.params := fun mem => old (mem_foldl_meet.mpr (.inl mem))
    have last : f.number id = ⟨s.function.values.length⟩ := by
      have size := congrArg List.length entered.names
      simp only [List.length_map] at size
      rw [number, List.idxOf_append_of_notMem old, size]
      simp
    have next := entered.mention old value resolved.body ty start
    have grown : (past ++ [id]).foldl meet f.params = past.foldl meet f.params ++ [id] := by
      rw [seen, meet, if_neg old]
    rw [← grown] at next
    refine ⟨_, ⟨_, _, _, ⟨rfl, rfl, rfl⟩, ?_⟩, ⟨?_, past ++ [id], done, split', results, next⟩⟩
    · simp only [reads_bind, reads_skip, reads_state]
      refine ⟨(), _, _, ⟨rfl, rfl⟩, _, _, _, ⟨rfl, rfl, rfl⟩, ?_⟩
      simp only [lookup, reads_bind, reads_update, reads_pure]
      exact ⟨_, _, _, reads_addLocal.mpr ⟨lookup, rfl, rfl, rfl⟩, (), _, _, ⟨rfl, rfl⟩,
        by rw [last], rfl, rfl⟩
    · simp only
      rw [frame]

theorem constantToken_shape (c : Constant) :
    (∃ text, constantToken c = .word text) ∨ ∃ value, constantToken c = .int value := by
  cases c with
  | int width value =>
    by_cases bit : width = 1
    · exact .inl ⟨_, by rw [constantToken, if_pos bit]⟩
    · exact .inr ⟨_, by rw [constantToken, if_neg bit]⟩
  | null | undef | poison => exact .inl ⟨_, rfl⟩

/-- A name of the module stands for what it names. -/
theorem takes_symbol {holds : Scope → Prop} {name : String} {ty : Ty} {symbol : Symbol}
    (found : m'.symbol? name = some symbol) :
    Takes (readOperand m'.symbol? ty) [.globalName name] Anything holds
      (match symbol with | .global id => .global id | .function id => .function id) holds := by
  intro ts rest s same _ held
  obtain ⟨⟨token, start, stop⟩, rfl, rfl⟩ := List.map_eq_singleton_iff.mp same
  refine ⟨s, ?_, held⟩
  simp only [readOperand, reads_bind, reads_peek, List.singleton_append, List.head?_cons]
  refine ⟨_, _, _, ⟨rfl, rfl, rfl⟩, ?_⟩
  simp only [reads_bind, reads_skip]
  refine ⟨(), _, _, ⟨rfl, rfl⟩, ?_⟩
  cases symbol <;> simp only [found, reads_pure, List.tail_cons, and_self]

theorem takes_operand (resolved : Resolved m m' f) {ty : Ty} {o : Operand}
    (known : OperandKnown m f o) (fits : o.ReadableAt ty) :
    Takes (readOperand m'.symbol? ty) [operandToken m f o] Anything
      (Midway m f g defs (o.value?.toList ++ uses)) (o.reread f.number ty)
      (Midway m f g defs uses) := by
  cases o with
  | value id =>
    obtain ⟨v, here, -⟩ := known
    exact takes_value resolved (by rw [here]; rfl)
  | global id =>
    obtain ⟨v, here, -⟩ := known
    have token : operandToken m f (.global id) = .globalName v.name := by
      rw [operandToken, globalName, here]
      rfl
    exact token ▸ takes_symbol (resolved.globals id v here)
  | function id =>
    obtain ⟨v, here, -⟩ := known
    have token : operandToken m f (.function id) = .globalName v.name := by
      rw [operandToken, functionName, here]
      rfl
    exact token ▸ takes_symbol (resolved.functions id v here)
  | constant c =>
    intro ts rest s same _ midway
    obtain ⟨⟨token, start, stop⟩, rfl, token_eq⟩ := List.map_eq_singleton_iff.mp same
    have takes : Takes (readConstant? ty) [constantToken c] Anything (Midway m f g defs uses)
        (some (c.reread ty)) (Midway m f g defs uses) := takes_constant fits
    obtain ⟨s', read, holds⟩ := takes _ rest s same trivial midway
    refine ⟨s', ?_, holds⟩
    simp only [readOperand, reads_bind, reads_peek, List.singleton_append, List.head?_cons]
    refine ⟨_, _, _, ⟨rfl, rfl, rfl⟩, ?_⟩
    rcases constantToken_shape c with ⟨text, word⟩ | ⟨value, int⟩
    · obtain rfl : token = .word text := token_eq.trans word
      simp only [reads_bind]
      refine ⟨_, _, _, read, ?_⟩
      simp only [Operand.reread, reads_pure, and_self]
    · obtain rfl : token = .int value := token_eq.trans int
      simp only [reads_bind]
      refine ⟨_, _, _, read, ?_⟩
      simp only [Operand.reread, reads_pure, and_self]

theorem takes_block {id : BlockId} (resolved : Resolved m m' f)
    (labels : g.blocks.map (·.name) = f.blocks.map (·.name)) (known : BlockKnown f id) :
    Takes readBlock [.localName (f.blockName id)] Anything (Midway m f g defs uses) id
      (Midway m f g defs uses) := by
  intro ts rest s same _ midway
  obtain ⟨l, rfl, token⟩ := List.map_eq_singleton_iff.mp same
  obtain ⟨b, here, -⟩ := known
  have name : f.blockName id = b.name := by rw [Function.blockName, here]; rfl
  have found : s.function.blockNamed? b.name = some id := by
    have table : s.function.blocks.map (·.name) = f.blocks.map (·.name) := by
      rw [midway.frame]
      exact labels
    have name_here : (s.function.blocks.map (·.name))[id.index]? = some b.name := by
      rw [Function.block?] at here
      rw [table, List.getElem?_map, here]
      rfl
    rw [List.getElem?_map] at name_here
    exact (Function.blockNamed?_eq_some_iff (table ▸ resolved.labels)).mpr
      (Option.map_eq_some_iff.mp name_here)
  refine ⟨s, ?_, midway⟩
  simp only [readBlock, reads_bind, reads_place, reads_demand, reads_state]
  refine ⟨_, _, _, ⟨rfl, rfl, rfl⟩, b.name, _, _, ⟨l, rfl, by rw [token, name], rfl⟩,
    _, _, _, ⟨rfl, rfl, rfl⟩, ?_⟩
  simp only [found, reads_pure]
  exact ⟨trivial, rfl, trivial⟩

theorem takes_result (resolved : Resolved m m' f) (start : Nat) :
    Takes (defineLocal start (f.valueName id) (f.writtenTy m id)) [] Anything
      (Midway m f g (id :: defs) (id :: uses)) (f.number id) (Midway m f g defs uses) := by
  intro ts rest s same _ midway
  obtain rfl := List.map_eq_nil_iff.mp same
  obtain ⟨frame, past, done, split, results, entered⟩ := midway
  have split' : (past ++ [id]) ++ uses = f.mentions := by simpa using split
  have results' : (done ++ [id]) ++ defs = f.results := by simpa using results
  have seen : (past ++ [id]).foldl meet f.params = meet (past.foldl meet f.params) id := by
    rw [List.foldl_append]
    rfl
  have number : f.number id = _ := number_of_split split' (by rw [seen]; exact mem_meet.mpr (.inr rfl))
  have waiting : id ∉ f.params ++ done := resolved.numbered.not_mem_front results
  have here : (f.value? id).isSome := by
    refine resolved.numbered.known id (List.mem_append_right _ ?_)
    rw [← split]
    simp
  have known := resolved.known split
  have lookup := entered.valueNamed? resolved.numbered resolved.body known here
  simp only [defineLocal, reads_bind, reads_state]
  by_cases old : id ∈ past.foldl meet f.params
  · rw [if_pos old] at lookup
    have grown : (past ++ [id]).foldl meet f.params = past.foldl meet f.params := by
      rw [seen, meet, if_pos old]
    obtain ⟨function, retyped, any, next, same_frame⟩ := entered.settle
      (nodup_foldl_meet resolved.numbered.params_nodup) resolved.numbered known old waiting
      resolved.body
    rw [List.append_assoc, ← grown] at next
    refine ⟨_, ⟨_, _, _, ⟨rfl, rfl, rfl⟩, ?_⟩, ⟨?_, past ++ [id], done ++ [id], split', results', next⟩⟩
    · rw [grown] at number
      simp only [lookup, any, retyped, Bool.not_true, Bool.false_eq_true, if_false, reads_bind,
        reads_update, reads_pure]
      exact ⟨(), _, _, ⟨rfl, rfl⟩, number, rfl, rfl⟩
    · simp only
      rw [same_frame, frame]
  · rw [if_neg old] at lookup
    have grown : (past ++ [id]).foldl meet f.params = past.foldl meet f.params ++ [id] := by
      rw [seen, meet, if_neg old]
    have value : id ∉ f.params := fun mem => waiting (List.mem_append_left _ mem)
    have last : f.number id = ⟨s.function.values.length⟩ := by
      have size := congrArg List.length entered.names
      simp only [List.length_map] at size
      rw [number, grown, List.idxOf_append_of_notMem old, size]
      simp
    have next := entered.introduce old value resolved.body
    rw [List.append_assoc, ← grown] at next
    refine ⟨_, ⟨_, _, _, ⟨rfl, rfl, rfl⟩, ?_⟩, ⟨?_, past ++ [id], done ++ [id], split', results', next⟩⟩
    · simp only [lookup, last]
      exact reads_addLocal.mpr ⟨lookup, rfl, rfl, rfl⟩
    · simp only
      rw [frame]

end

end BlockTally.Listing
