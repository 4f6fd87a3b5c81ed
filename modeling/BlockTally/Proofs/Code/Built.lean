import BlockTally.Code.Module
import BlockTally.Proofs.Code.FreshName
import Mathlib.Data.List.Basic
import Mathlib.Logic.Relation

/-! Functions and modules that came about through their own operations, and what every one of them
keeps: names that are not repeated, and parameters that stand in the table of values. -/
namespace BlockTally
open Relation

section
variable {α : Type} {name : α → String} {l : List α} {n : String} {k : Nat}

/-- What the search for a name finds bears it. -/
theorem named_of_findIdx? (found : l.findIdx? (name · == n) = some k) :
    ∃ a, l[k]? = some a ∧ name a = n := by
  obtain ⟨inside, bears, -⟩ := List.findIdx?_eq_some_iff_getElem.mp found
  exact ⟨l[k], List.getElem?_eq_getElem inside, by simpa using bears⟩

/-- Where no name is repeated, what bears a name is found. -/
theorem findIdx?_named (distinct : (l.map name).Nodup) :
    l.findIdx? (name · == n) = some k ↔ ∃ a, l[k]? = some a ∧ name a = n := by
  refine ⟨named_of_findIdx?, ?_⟩
  rintro ⟨a, here, rfl⟩
  obtain ⟨inside, same⟩ := List.getElem?_eq_some_iff.mp here
  rw [List.findIdx?_eq_some_iff_getElem]
  refine ⟨inside, by simp [same], ?_⟩
  intro j before hit
  have bears : name l[j] = name a := by simpa using hit
  have twice : (l.map name)[j]? = (l.map name)[k]? := by
    rw [List.getElem?_map, List.getElem?_map, here, List.getElem?_eq_getElem (by omega),
      Option.map_some, Option.map_some, bears]
  have equal := (List.getElem?_inj (by simpa using by omega) distinct).mp twice
  omega

end

namespace Function

/-- One operation on a function. A block may be exchanged as a whole. -/
inductive Step : Function → Function → Prop
  | addParam (f : Function) (ty : Ty) (name : String) : Step f (f.addParam ty name).2
  | addValue (f : Function) (hint : String) (ty : Ty) (origin : Origin) :
      Step f (f.addValue hint ty origin).2
  | addNamedValue {f f' : Function} {name : String} {ty : Ty} {origin : Origin} {id : ValueId}
      (ok : f.addNamedValue name ty origin = .ok (id, f')) : Step f f'
  | retype {f f' : Function} {id : ValueId} {ty : Ty} (ok : f.retype id ty = some f') : Step f f'
  | addBlock (f : Function) (name : String) : Step f (f.addBlock name).2
  | setBlock (f : Function) (id : BlockId) (b : Block) : Step f (f.setBlock id b)
  | setLinkage (f : Function) (linkage : Linkage) : Step f { f with linkage }
  | setVariadic (f : Function) (variadic : Bool) : Step f { f with variadic }
  | setAttrs (f : Function) (attrs : Attributes) : Step f { f with attrs }

def Steps : Function → Function → Prop := ReflTransGen Step

def Built (f : Function) : Prop := ∃ name ret, Steps { name, ret } f

theorem valueNamed?_isSome {f : Function} {name : String} :
    (f.valueNamed? name).isSome = true ↔ name ∈ f.values.map (·.name) := by
  rw [valueNamed?, Option.isSome_map, List.findIdx?_isSome]
  simp only [List.any_eq_true, beq_iff_eq, List.mem_map]

theorem valueNamed?_eq_some_iff {f : Function} (distinct : (f.values.map (·.name)).Nodup)
    {name : String} {id : ValueId} :
    f.valueNamed? name = some id ↔ ∃ v, f.value? id = some v ∧ v.name = name := by
  cases id with
  | mk index => simp [valueNamed?, value?, findIdx?_named distinct]

theorem blockNamed?_eq_some_iff {f : Function} (distinct : (f.blocks.map (·.name)).Nodup)
    {name : String} {id : BlockId} :
    f.blockNamed? name = some id ↔ ∃ b, f.block? id = some b ∧ b.name = name := by
  cases id with
  | mk index => simp [blockNamed?, block?, findIdx?_named distinct]

theorem addNamedValue_eq_ok {f f' : Function} {name : String} {ty : Ty} {origin : Origin}
    {id : ValueId} : f.addNamedValue name ty origin = .ok (id, f') ↔
      name ∉ f.values.map (·.name) ∧ id = ⟨f.values.length⟩ ∧
        f' = { f with values := f.values ++ [⟨name, ty, origin⟩] } := by
  simp only [addNamedValue, ← valueNamed?_isSome, eq_comm (a := id), eq_comm (a := f')]
  split <;> simp_all

theorem Built.steps {f f' : Function} (built : f.Built) (steps : Steps f f') : f'.Built := by
  obtain ⟨name, ret, made⟩ := built
  exact ⟨name, ret, made.trans steps⟩

theorem Steps.push {f f' : Function} {id : BlockId} {inst : Instruction}
    (ok : f.push id inst = some f') : Steps f f' := by
  obtain ⟨b, -, rfl⟩ := Option.map_eq_some_iff.mp ok
  exact .single (.setBlock f id _)

theorem declare_built (name : String) (sig : Signature) : (declare name sig).Built := by
  suffices steps : ∀ (tys : List Ty) (f : Function),
      Steps f (tys.foldl (fun f ty => (f.addParam ty "").2) f) from
    ⟨name, sig.ret, .head (.setVariadic _ sig.variadic) (steps sig.params _)⟩
  intro tys
  induction tys with
  | nil => exact fun f => .refl
  | cons ty tys ih => exact fun f => .head (.addParam f ty "") (ih _)

/-- No two values share a name, and each parameter is a value of its own that knows its position
and has a name. -/
structure Coherent (f : Function) : Prop where
  distinct : (f.values.map (·.name)).Nodup
  separate : f.params.Nodup
  param : ∀ k id, f.params[k]? = some id →
    ∃ v, f.value? id = some v ∧ v.origin = .parameter k ∧ v.name ≠ ""

section
variable {f : Function} {v : Value}

theorem Coherent.param_lt (sound : f.Coherent) {id : ValueId} (mem : id ∈ f.params) :
    id.index < f.values.length := by
  obtain ⟨k, here⟩ := List.getElem?_of_mem mem
  obtain ⟨v, found, -⟩ := sound.param k id here
  exact (List.getElem?_eq_some_iff.mp found).1

theorem Coherent.addedValue (sound : f.Coherent) (free : v.name ∉ f.values.map (·.name)) :
    Coherent { f with values := f.values ++ [v] } := by
  refine ⟨?_, sound.separate, ?_⟩
  · simpa [List.nodup_append, sound.distinct] using free
  · intro k id here
    obtain ⟨w, found, known⟩ := sound.param k id here
    refine ⟨w, ?_, known⟩
    have inside := (List.getElem?_eq_some_iff.mp found).1
    simpa only [value?, List.getElem?_append_left inside] using found

theorem Coherent.addedParam (sound : f.Coherent) (ty : Ty) (name : String) :
    (f.addParam ty name).2.Coherent := by
  obtain ⟨distinct, separate, param⟩ := sound.addedValue
    (v := ⟨freshName (f.values.map (·.name)) f.values.length name, ty,
      .parameter f.params.length⟩) (freshName_not_mem _ _ _)
  refine ⟨distinct, ?_, ?_⟩
  · have fresh : (⟨f.values.length⟩ : ValueId) ∉ f.params := fun mem => by
      have := sound.param_lt mem
      simp at this
    simp only [addParam, addValue, List.nodup_append, sound.separate, true_and]
    refine ⟨by simp, ?_⟩
    intro id mem _ last same
    exact fresh (List.mem_singleton.mp last ▸ same ▸ mem)
  · intro k id here
    rcases Nat.lt_trichotomy k f.params.length with before | rfl | behind
    · exact param k id (by simpa [addParam, addValue, List.getElem?_append_left before] using here)
    · have last : id = ⟨f.values.length⟩ := by simpa [addParam, addValue, eq_comm] using here
      subst last
      refine ⟨⟨freshName (f.values.map (·.name)) f.values.length name, ty,
        .parameter f.params.length⟩, ?_, rfl, freshName_ne_empty _ _ _⟩
      simp [addParam, addValue, value?]
    · have outside := (List.getElem?_eq_some_iff.mp here).1
      simp [addParam, addValue] at outside
      omega

theorem names_retyped {id : ValueId} {ty : Ty} (found : f.value? id = some v) :
    (f.values.set id.index { v with ty }).map (·.name) = f.values.map (·.name) := by
  obtain ⟨inside, here⟩ := List.getElem?_eq_some_iff.mp found
  apply List.ext_getElem?
  intro k
  by_cases same : id.index = k
  · simp [← same, inside, here]
  · simp [List.getElem?_set_ne same]

theorem Coherent.step {f' : Function} (sound : f.Coherent) (step : Step f f') : f'.Coherent := by
  cases step with
  | addParam ty name => exact sound.addedParam ty name
  | addValue hint ty origin => exact sound.addedValue (freshName_not_mem _ _ _)
  | addNamedValue ok =>
    obtain ⟨free, -, rfl⟩ := addNamedValue_eq_ok.mp ok
    exact sound.addedValue free
  | @retype _ id ty ok =>
    obtain ⟨v, found, rfl⟩ := Option.map_eq_some_iff.mp ok
    obtain ⟨inside, -⟩ := List.getElem?_eq_some_iff.mp found
    refine ⟨names_retyped found ▸ sound.distinct, sound.separate, ?_⟩
    intro k p here
    obtain ⟨w, found', known⟩ := sound.param k p here
    by_cases same : id.index = p.index
    · have same_value : v = w := by
        rw [value?, same] at found
        exact Option.some.inj (found.symm.trans found')
      subst same_value
      refine ⟨{ v with ty }, ?_, known⟩
      simp [value?, ← same, inside]
    · refine ⟨w, ?_, known⟩
      simpa only [value?, List.getElem?_set_ne same] using found'
  | addBlock | setBlock | setLinkage | setVariadic | setAttrs =>
    exact ⟨sound.distinct, sound.separate, sound.param⟩

theorem Built.coherent (built : f.Built) : f.Coherent := by
  obtain ⟨name, ret, steps⟩ := built
  induction steps with
  | refl => exact ⟨.nil, .nil, by simp⟩
  | tail _ step sound => exact sound.step step

/-- A new parameter adds its type to the signature. -/
theorem Coherent.signature_addParam (sound : f.Coherent) (ty : Ty) (name : String) :
    (f.addParam ty name).2.signature =
      { f.signature with params := f.signature.params ++ [ty] } := by
  have old : ∀ id ∈ f.params, ((f.addParam ty name).2.value? id).map (·.ty) =
      (f.value? id).map (·.ty) := by
    intro id mem
    have inside := sound.param_lt mem
    simp [addParam, addValue, value?, List.getElem?_append_left inside]
  have new : ((f.addParam ty name).2.value? ⟨f.values.length⟩).map (·.ty) = some ty := by
    simp [addParam, addValue, value?]
  have params : (f.addParam ty name).2.params = f.params ++ [⟨f.values.length⟩] := rfl
  simp only [signature, params, List.filterMap_append, List.filterMap_cons, new,
    List.filterMap_nil, List.filterMap_congr old]
  rfl

theorem declare_signature (name : String) (sig : Signature) :
    (declare name sig).signature = sig := by
  suffices grown : ∀ (tys : List Ty) (f : Function), f.Coherent →
      (tys.foldl (fun f ty => (f.addParam ty "").2) f).signature =
        { f.signature with params := f.signature.params ++ tys } from
    grown sig.params _ ⟨.nil, .nil, by simp⟩
  intro tys
  induction tys with
  | nil => simp
  | cons ty tys ih =>
    intro f sound
    have later := ih _ (sound.addedParam ty "")
    rw [sound.signature_addParam] at later
    simpa using later

end

end Function

namespace Module

def symbolNames (m : Module) : List String := m.globals.map (·.name) ++ m.functions.map (·.name)

/-- Made through the operations on a module. Functions are entered whole and changed in place. -/
inductive Built : Module → Prop
  | new (name : String) : Built { name }
  | header {m : Module} (built : Built m) (sourceFilename datalayout triple : Option String) :
      Built { m with sourceFilename, datalayout, triple }
  | addGlobal {m m' : Module} {g : Global} {id : GlobalId} (built : Built m)
      (ok : m.addGlobal g = .ok (id, m')) : Built m'
  | addFunction {m m' : Module} {f : Function} {id : FuncId} (built : Built m) (made : f.Built)
      (ok : m.addFunction f = .ok (id, m')) : Built m'
  | setFunction {m : Module} {f f' : Function} {id : FuncId} (built : Built m)
      (found : m.function? id = some f) (steps : f.Steps f') : Built (m.setFunction id f')
  | addMetadata {m : Module} (built : Built m) (node : UInt32) (text : String) :
      Built (m.addMetadata node text)
  | addNamedMetadata {m : Module} (built : Built m) (name text : String) :
      Built (m.addNamedMetadata name text)
  | addComdat {m : Module} (built : Built m) (text : String) : Built (m.addComdat text)
  | addAttributeGroup {m : Module} (built : Built m) (text : String) :
      Built (m.addAttributeGroup text)

variable {m m' : Module}

theorem symbol?_isSome {name : String} :
    (m.symbol? name).isSome = true ↔ name ∈ m.symbolNames := by
  simp only [symbol?, globalNamed?, functionNamed?, Option.isSome_or, Option.isSome_map,
    List.findIdx?_isSome, Bool.or_eq_true, List.any_eq_true, beq_iff_eq, symbolNames,
    List.mem_append, List.mem_map]

theorem symbol?_congr (globals : m'.globals.map (·.name) = m.globals.map (·.name))
    (functions : m'.functions.map (·.name) = m.functions.map (·.name)) (name : String) :
    m'.symbol? name = m.symbol? name := by
  have first : m'.globalNamed? name = m.globalNamed? name := by
    have same := congrArg (List.findIdx? (· == name)) globals
    rw [List.findIdx?_map, List.findIdx?_map] at same
    exact congrArg (Option.map GlobalId.mk) same
  have second : m'.functionNamed? name = m.functionNamed? name := by
    have same := congrArg (List.findIdx? (· == name)) functions
    rw [List.findIdx?_map, List.findIdx?_map] at same
    exact congrArg (Option.map FuncId.mk) same
  rw [symbol?, symbol?, first, second]

theorem symbol?_eq_global_iff (distinct : m.symbolNames.Nodup) {name : String} {id : GlobalId} :
    m.symbol? name = some (.global id) ↔ ∃ g, m.global? id = some g ∧ g.name = name := by
  have names := (List.nodup_append.mp distinct).1
  cases id with
  | mk index => simp [symbol?, globalNamed?, functionNamed?, global?, findIdx?_named names]

theorem symbol?_eq_function_iff (distinct : m.symbolNames.Nodup) {name : String} {id : FuncId} :
    m.symbol? name = some (.function id) ↔ ∃ f, m.function? id = some f ∧ f.name = name := by
  obtain ⟨-, names, apart⟩ := List.nodup_append.mp distinct
  cases id with
  | mk index =>
    have known : m.symbol? name = some (.function ⟨index⟩) ↔ m.globalNamed? name = none ∧
        m.functions.findIdx? (·.name == name) = some index := by
      simp [symbol?, functionNamed?, Option.or_eq_some_iff]
    rw [known, findIdx?_named names, function?]
    refine ⟨And.right, fun bears => ⟨?_, bears⟩⟩
    obtain ⟨f, here, rfl⟩ := bears
    rw [globalNamed?, Option.map_eq_none_iff, List.findIdx?_eq_none_iff]
    intro g mem
    have other := apart g.name (List.mem_map_of_mem mem) f.name
      (List.mem_map_of_mem (List.mem_of_getElem? here))
    simpa using other

theorem addGlobal_eq_ok {g : Global} {id : GlobalId} : m.addGlobal g = .ok (id, m') ↔
    g.name ∉ m.symbolNames ∧ id = ⟨m.globals.length⟩ ∧
      m' = { m with globals := m.globals ++ [g] } := by
  simp only [addGlobal, ← symbol?_isSome, eq_comm (a := id), eq_comm (a := m')]
  split <;> simp_all

theorem addFunction_eq_ok {f : Function} {id : FuncId} : m.addFunction f = .ok (id, m') ↔
    f.name ∉ m.symbolNames ∧ id = ⟨m.functions.length⟩ ∧
      m' = { m with functions := m.functions ++ [f] } := by
  simp only [addFunction, ← symbol?_isSome, eq_comm (a := id), eq_comm (a := m')]
  split <;> simp_all

theorem distinct_addGlobal {g : Global} (distinct : m.symbolNames.Nodup)
    (free : g.name ∉ m.symbolNames) :
    (symbolNames { m with globals := m.globals ++ [g] }).Nodup := by
  have perm : (symbolNames { m with globals := m.globals ++ [g] }).Perm
      (g.name :: m.symbolNames) := by
    simp [symbolNames]
  exact perm.nodup_iff.mpr (List.nodup_cons.mpr ⟨free, distinct⟩)

theorem distinct_addFunction {f : Function} (distinct : m.symbolNames.Nodup)
    (free : f.name ∉ m.symbolNames) :
    (symbolNames { m with functions := m.functions ++ [f] }).Nodup := by
  have whole : symbolNames { m with functions := m.functions ++ [f] } =
      m.symbolNames ++ [f.name] := by simp [symbolNames]
  rw [whole, List.nodup_append]
  refine ⟨distinct, by simp, ?_⟩
  intro name mem _ last same
  exact free (List.mem_singleton.mp last ▸ same ▸ mem)

/-- No two symbols share a name, the nodes stand in the order of their numbers, and the functions
are coherent. -/
structure Coherent (m : Module) : Prop where
  distinct : m.symbolNames.Nodup
  ordered : m.metadata.Pairwise (·.1 < ·.1)
  functions : ∀ f ∈ m.functions, f.Coherent

private theorem insertNode_ordered {node : UInt32} {text : String} :
    ∀ {entries : List (UInt32 × String)}, entries.Pairwise (·.1 < ·.1) →
      (insertNode node text entries).Pairwise (·.1 < ·.1) ∧
      ∀ e ∈ insertNode node text entries, e.1 = node ∨ e ∈ entries
  | [], _ => by simp [insertNode]
  | entry :: rest, ordered => by
    obtain ⟨first, ordered'⟩ := List.pairwise_cons.mp ordered
    unfold insertNode
    split
    · next before =>
      refine ⟨List.pairwise_cons.mpr ⟨?_, ordered⟩, ?_⟩
      · intro e mem
        rcases List.mem_cons.mp mem with rfl | mem
        · exact before
        · exact UInt32.lt_trans before (first e mem)
      · intro e mem
        rcases List.mem_cons.mp mem with rfl | mem
        · exact .inl rfl
        · exact .inr mem
    · split
      · next same =>
        refine ⟨List.pairwise_cons.mpr ⟨fun e mem => same ▸ first e mem, ordered'⟩, ?_⟩
        intro e mem
        rcases List.mem_cons.mp mem with rfl | mem
        · exact .inl rfl
        · exact .inr (List.mem_cons_of_mem _ mem)
      · next not_before other =>
        obtain ⟨later, known⟩ := insertNode_ordered ordered'
        have behind : entry.1 < node :=
          UInt32.lt_of_le_of_ne (UInt32.not_lt.mp not_before) (Ne.symm other)
        refine ⟨List.pairwise_cons.mpr ⟨?_, later⟩, ?_⟩
        · intro e mem
          rcases known e mem with same | mem
          · exact same ▸ behind
          · exact first e mem
        · intro e mem
          rcases List.mem_cons.mp mem with rfl | mem
          · exact .inr List.mem_cons_self
          · exact (known e mem).imp_right (List.mem_cons_of_mem _)

end Module

theorem Function.Step.name_eq {f f' : Function} (step : Step f f') : f'.name = f.name := by
  cases step with
  | addNamedValue ok => rw [(addNamedValue_eq_ok.mp ok).2.2]
  | retype ok =>
    obtain ⟨_, -, rfl⟩ := Option.map_eq_some_iff.mp ok
    rfl
  | _ => rfl

theorem Function.Steps.name_eq {f f' : Function} (steps : Steps f f') : f'.name = f.name := by
  induction steps with
  | refl => rfl
  | tail _ step same => exact step.name_eq.trans same

theorem Function.declare_name (name : String) (sig : Signature) : (declare name sig).name = name := by
  suffices same : ∀ (tys : List Ty) (f : Function),
      (tys.foldl (fun f ty => (f.addParam ty "").2) f).name = f.name from same sig.params _
  intro tys
  induction tys with
  | nil => exact fun f => rfl
  | cons ty tys ih => exact fun f => ih _

theorem Module.Built.functions {m : Module} (built : m.Built) : ∀ f ∈ m.functions, f.Built := by
  induction built with
  | new => exact List.forall_mem_nil _
  | addGlobal _ ok ih =>
    obtain ⟨-, -, rfl⟩ := addGlobal_eq_ok.mp ok
    exact ih
  | addFunction _ made ok ih =>
    obtain ⟨-, -, rfl⟩ := addFunction_eq_ok.mp ok
    exact List.forall_mem_append.mpr ⟨ih, List.forall_mem_singleton.mpr made⟩
  | setFunction _ found steps ih =>
    intro g mem
    rcases List.mem_or_eq_of_mem_set mem with old | rfl
    · exact ih g old
    · exact (ih _ (List.mem_of_getElem? found)).steps steps
  | _ => assumption

theorem Module.names_setFunction {m : Module} {f f' : Function} {id : FuncId}
    (found : m.function? id = some f) (same : f'.name = f.name) :
    (m.setFunction id f').functions.map (·.name) = m.functions.map (·.name) := by
  obtain ⟨inside, here⟩ := List.getElem?_eq_some_iff.mp found
  apply List.ext_getElem?
  intro k
  by_cases place : id.index = k
  · simp [setFunction, ← place, inside, here, same]
  · simp [setFunction, List.getElem?_set_ne place]

theorem Module.Built.coherent {m : Module} (built : m.Built) : m.Coherent := by
  suffices known : m.symbolNames.Nodup ∧ m.metadata.Pairwise (·.1 < ·.1) from
    ⟨known.1, known.2, fun f mem => (built.functions f mem).coherent⟩
  induction built with
  | new => exact ⟨.nil, .nil⟩
  | header _ _ _ _ known => exact known
  | addGlobal _ ok known =>
    obtain ⟨free, -, rfl⟩ := addGlobal_eq_ok.mp ok
    exact ⟨distinct_addGlobal known.1 free, known.2⟩
  | addFunction _ made ok known =>
    obtain ⟨free, -, rfl⟩ := addFunction_eq_ok.mp ok
    exact ⟨distinct_addFunction known.1 free, known.2⟩
  | @setFunction m f f' id _ found steps known =>
    refine ⟨?_, known.2⟩
    rw [symbolNames, names_setFunction found steps.name_eq]
    exact known.1
  | addMetadata _ _ _ known => exact ⟨known.1, (insertNode_ordered known.2).1⟩
  | addNamedMetadata _ _ _ known | addComdat _ _ known | addAttributeGroup _ _ known => exact known

end BlockTally
