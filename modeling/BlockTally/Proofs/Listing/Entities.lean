import BlockTally.Proofs.Listing.Headers

/-! Entities in sequence. A piece of text that holds whole entities takes the draft of a module
further, wherever the piece stands. Main statements: `Yields.append`, `yields_lines`. -/
namespace BlockTally.Listing
open Text Read

/-- A token with which an entity begins. -/
def startsEntity : Token → Bool
  | .globalName _ | .comdatRef | .nodeRef _ | .nodeName _ => true
  | .word text => ["source_filename", "target", "declare", "define", "attributes"].contains text
  | _ => false

/-- An entity follows, or nothing. -/
abbrev NextEntity : List Token → Prop := fun r => ∀ t ∈ r.head?, startsEntity t = true

/-- Entities are read one after the other. -/
inductive Goes (src : List Char) : List Lexeme → Draft → List Lexeme → Draft → Prop
  | done {ts : List Lexeme} {d : Draft} : Goes src ts d ts d
  | entity {t : Lexeme} {ts between rest : List Lexeme} {d d₁ d₂ : Draft}
      (once : Reads (readEntity src t) ts d () between d₁) (more : Goes src between d₁ rest d₂) :
      Goes src (t :: ts) d rest d₂

section
variable {src : List Char}

theorem Goes.trans {ts us vs : List Lexeme} {d d₁ d₂ : Draft} (first : Goes src ts d us d₁)
    (second : Goes src us d₁ vs d₂) : Goes src ts d vs d₂ := by
  induction first with
  | done => exact second
  | entity once _ ih => exact .entity once (ih second)

theorem Goes.reads {ts : List Lexeme} {d d' : Draft} (goes : Goes src ts d [] d') :
    Reads (readEntities src) ts d () [] d' := by
  rw [readEntities, reads_whileNext]
  generalize left : ([] : List Lexeme) = rest at goes
  induction goes with
  | done =>
    subst left
    exact .finish (by simp)
  | entity once _ ih => exact .round rfl once (ih left)

/-- The entities in the text take a draft with `P` to one with `Q`. -/
def Yields (src : List Char) (text : String) (P Q : Draft → Prop) : Prop :=
  ∃ ts, Lexes Anywhere text.toList ts ∧
    (∀ r, NextEntity r → NextEntity (ts.map (·.token) ++ r)) ∧
    ∀ o rest d, At src o text.toList →
      (∀ t ∈ rest, o + byteLength text.toList ≤ t.start) → NextEntity (rest.map (·.token)) → P d →
      ∃ d', Goes src (ts.map (·.shift o) ++ rest) d rest d' ∧ Q d'

variable {a b : String} {P Q R : Draft → Prop}

theorem yields_gap (gap : Spells Anywhere a []) : Yields src a P P := by
  obtain ⟨ts, lexes, none⟩ := gap
  obtain rfl := List.map_eq_nil_iff.mp none
  exact ⟨[], lexes, fun _ => id, fun _ _ d _ _ _ holds => ⟨d, .done, holds⟩⟩

theorem Yields.imp (yields : Yields src a P Q) (more : ∀ d, Q d → R d) : Yields src a P R := by
  obtain ⟨ts, lexes, starts, goes⟩ := yields
  refine ⟨ts, lexes, starts, fun o rest d place behind next holds => ?_⟩
  obtain ⟨d', read, known⟩ := goes o rest d place behind next holds
  exact ⟨d', read, more d' known⟩

theorem Yields.append (first : Yields src a P Q) (second : Yields src b Q R) :
    Yields src (a ++ b) P R := by
  obtain ⟨ts, lexes, starts, goes⟩ := first
  obtain ⟨us, lexes', starts', goes'⟩ := second
  refine ⟨_, String.toList_append ▸ lexes.append lexes' fun _ _ => trivial, ?_, ?_⟩
  · intro r next
    rw [List.map_append, map_token_shift, List.append_assoc]
    exact starts _ (starts' r next)
  · intro o rest d place behind next holds
    rw [String.toList_append] at place
    rw [String.toList_append, byteLength_append, ← Nat.add_assoc] at behind
    have tokens : ((us.map (·.shift (o + byteLength a.toList)) ++ rest).map (·.token)) =
        us.map (·.token) ++ rest.map (·.token) := by
      rw [List.map_append, map_token_shift]
    have inside : ∀ t ∈ us.map (·.shift (o + byteLength a.toList)) ++ rest,
        o + byteLength a.toList ≤ t.start := by
      intro t mem
      rcases List.mem_append.mp mem with own | later
      · obtain ⟨u, -, rfl⟩ := List.mem_map.mp own
        exact Nat.le_add_right _ _
      · have := behind t later
        omega
    obtain ⟨d₁, first, known⟩ := goes o _ d place.left inside (tokens ▸ starts' _ next) holds
    obtain ⟨d₂, second, known'⟩ := goes' _ rest d₁ place.right behind next known
    refine ⟨d₂, ?_, known'⟩
    have shifted : (ts ++ us.map (·.shift (byteLength a.toList))).map (·.shift o) ++ rest =
        ts.map (·.shift o) ++ (us.map (·.shift (o + byteLength a.toList)) ++ rest) := by
      simp [Lexeme.shift_shift, Function.comp_def]
    rw [shifted]
    exact first.trans second

/-- One entity. -/
theorem yields_entity {t : Lexeme} {more : List Lexeme} (lexes : Lexes Anywhere a.toList (t :: more))
    (starts : startsEntity t.token = true)
    (reads : ∀ o rest d, At src o a.toList → (∀ t ∈ rest, o + byteLength a.toList ≤ t.start) →
      NextEntity (rest.map (·.token)) → P d →
      ∃ d', Reads (readEntity src (t.shift o)) (more.map (·.shift o) ++ rest) d () rest d' ∧ Q d') :
    Yields src a P Q := by
  refine ⟨t :: more, lexes, ?_, ?_⟩
  · rintro r _ _ ⟨⟩
    exact starts
  · intro o rest d place behind next holds
    obtain ⟨d', read, known⟩ := reads o rest d place behind next holds
    exact ⟨d', .entity read .done, known⟩

/-- One entity, of which all but the first token is described. -/
theorem yields_described {followed : List Char → Prop} {token : Token} {size : Nat}
    {desc : Described} (first : Lexes followed a.toList [⟨token, 0, size⟩])
    (between : ∀ post, followed (b.toList ++ post)) (starts : startsEntity token = true)
    (describes : Describes src Anywhere b desc)
    (reads : ∀ o ts rest d, At src o (a ++ b).toList → desc ts →
      (∀ t ∈ rest, o + byteLength (a ++ b).toList ≤ t.start) → NextEntity (rest.map (·.token)) →
      P d → ∃ d', Reads (readEntity src ⟨token, o, o + size⟩) (ts ++ rest) d () rest d' ∧ Q d') :
    Yields src (a ++ b) P Q := by
  obtain ⟨us, lexes, fits⟩ := describes
  have both := first.append lexes fun post (_ : Anywhere post) => between post
  rw [← String.toList_append] at both
  have whole : Lexes Anywhere (a ++ b).toList
      (⟨token, 0, size⟩ :: us.map (·.shift (byteLength a.toList))) := both
  refine yields_entity whole starts fun o rest d place behind next holds => ?_
  have split := place
  rw [String.toList_append] at split
  have described := fits _ split.right
  obtain ⟨d', read, known⟩ := reads o _ rest d place described behind next holds
  refine ⟨d', ?_, known⟩
  have shifted : (us.map (·.shift (byteLength a.toList))).map (·.shift o) =
      us.map (·.shift (o + byteLength a.toList)) := by
    simp [Lexeme.shift_shift, Function.comp_def]
  rw [shifted]
  exact read

/-- Pieces one after the other, of which each takes the draft one item further. -/
theorem yields_join {ι : Type} {text : ι → String} {P : List ι → Draft → Prop} {xs : List ι}
    (each : ∀ done x later, xs = done ++ x :: later →
      Yields src (text x) (P done) (P (done ++ [x]))) :
    Yields src (.join (xs.map text)) (P []) (P xs) := by
  have pieces : ∀ later done, xs = done ++ later →
      Yields src (.join (later.map text)) (P done) (P xs) := by
    intro later
    induction later with
    | nil =>
      intro done whole
      rw [List.append_nil] at whole
      rw [whole]
      exact yields_gap spells_empty
    | cons x later ih =>
      intro done whole
      rw [List.map_cons, String.join_cons]
      exact (each done x later whole).append (ih (done ++ [x]) (by simp [whole]))
  exact pieces xs [] rfl

/-- Lines that stand behind an empty one, each an entity. -/
theorem yields_lines {ι : Type} {text : ι → String} {P : List ι → Draft → Prop} {xs : List ι}
    (each : ∀ done x later, xs = done ++ x :: later →
      Yields src (text x ++ "\n") (P done) (P (done ++ [x]))) :
    Yields src (sectionText (xs.map text)) (P []) (P xs) := by
  unfold sectionText
  split
  · next none =>
    have empty : xs = [] := by simpa using none
    rw [empty]
    exact yields_gap spells_empty
  · rw [List.map_map]
    exact (yields_gap spells_break).append (yields_join each)

end

end BlockTally.Listing
