import BlockTally.Proofs.Listing.Reread
import Mathlib.Data.List.Nodup

/-! The order of first mention. A value keeps its number once it has one. -/
namespace BlockTally

section
variable {seen ids : List ValueId} {id : ValueId}

private theorem prefix_meet (seen : List ValueId) (id : ValueId) : seen <+: meet seen id := by
  unfold meet
  split
  · exact List.prefix_refl seen
  · exact List.prefix_append seen [id]

theorem mem_meet {x : ValueId} : x ∈ meet seen id ↔ x ∈ seen ∨ x = id := by
  unfold meet
  split
  · next old =>
    constructor
    · exact .inl
    · intro either
      rcases either with mem | rfl
      · exact mem
      · exact old
  · rw [List.mem_append, List.mem_singleton]

private theorem nodup_meet (distinct : seen.Nodup) : (meet seen id).Nodup := by
  unfold meet
  split
  · exact distinct
  · next new =>
    rw [← List.concat_eq_append]
    exact distinct.concat new

theorem prefix_foldl_meet (seen ids : List ValueId) : seen <+: ids.foldl meet seen := by
  induction ids generalizing seen with
  | nil => exact List.prefix_refl seen
  | cons id ids ih => exact (prefix_meet seen id).trans (ih _)

theorem mem_foldl_meet {x : ValueId} : x ∈ ids.foldl meet seen ↔ x ∈ seen ∨ x ∈ ids := by
  induction ids generalizing seen with
  | nil => simp
  | cons id ids ih => rw [List.foldl_cons, ih, mem_meet, List.mem_cons, or_assoc]

theorem nodup_foldl_meet (distinct : seen.Nodup) : (ids.foldl meet seen).Nodup := by
  induction ids generalizing seen with
  | nil => exact distinct
  | cons id ids ih => exact ih (nodup_meet distinct)

end

namespace Function

/-- Values are told apart by their names, every value that is mentioned is in the table, and none
is a parameter and a result or twice a result. -/
structure Numbered (f : Function) : Prop where
  distinct : (f.values.map (·.name)).Nodup
  known : ∀ id ∈ f.params ++ f.mentions, (f.value? id).isSome
  once : (f.params ++ f.results).Nodup

variable {f : Function}

theorem valueName_eq {id : ValueId} {v : Value} (here : f.value? id = some v) :
    f.valueName id = v.name := by
  rw [valueName, here]
  rfl

theorem Numbered.name_injective (numbered : f.Numbered) {a b : ValueId}
    (here : (f.value? a).isSome) (there : (f.value? b).isSome)
    (same : f.valueName a = f.valueName b) : a = b := by
  obtain ⟨v, found⟩ := Option.isSome_iff_exists.mp here
  obtain ⟨w, found'⟩ := Option.isSome_iff_exists.mp there
  rw [valueName_eq found, valueName_eq found'] at same
  have names : (f.values.map (·.name))[a.index]? = (f.values.map (·.name))[b.index]? := by
    rw [value?] at found found'
    rw [List.getElem?_map, List.getElem?_map, found, found', Option.map_some, Option.map_some, same]
  have low := (List.getElem?_eq_some_iff.mp found).1
  have index := (List.getElem?_inj (by simpa using low) numbered.distinct).mp names
  cases a
  cases b
  exact congrArg ValueId.mk index

theorem mem_order {id : ValueId} : id ∈ f.order ↔ id ∈ f.params ∨ id ∈ f.mentions := mem_foldl_meet

theorem nodup_order (distinct : f.params.Nodup) : f.order.Nodup := nodup_foldl_meet distinct

theorem Numbered.params_nodup (numbered : f.Numbered) : f.params.Nodup :=
  (List.nodup_append.mp numbered.once).1

/-- No result is defined before. -/
theorem Numbered.not_mem_front (numbered : f.Numbered) {done later : List ValueId} {id : ValueId}
    (results : done ++ id :: later = f.results) : id ∉ f.params ++ done := by
  have once := numbered.once
  rw [← results, List.append_cons, ← List.append_assoc, ← List.append_assoc] at once
  have front := (List.nodup_append.mp once).1
  exact fun mem => (List.nodup_append.mp front).2.2 id mem id (by simp) rfl

/-- A value has its number from its first mention on. -/
theorem number_eq {seen : List ValueId} {id : ValueId} (front : seen <+: f.order)
    (mem : id ∈ seen) : f.number id = ⟨seen.idxOf id⟩ := by
  obtain ⟨more, whole⟩ := front
  rw [number, ← whole, List.idxOf_append_of_mem mem]

theorem mem_mentions_of_results {id : ValueId} (mem : id ∈ f.results) : id ∈ f.mentions := by
  obtain ⟨inst, here, result⟩ := List.mem_filterMap.mp mem
  refine List.mem_flatMap.mpr ⟨inst, here, ?_⟩
  rw [Instruction.mentions, result]
  simp

theorem order_getElem? {id : ValueId} (mem : id ∈ f.order) :
    f.order[(f.number id).index]? = some id := List.getElem?_idxOf mem

end Function

end BlockTally
