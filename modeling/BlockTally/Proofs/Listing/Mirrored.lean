import BlockTally.Proofs.Code.Registry
import BlockTally.Proofs.Listing.Signatures

/-! The same steps over the same tokens, with states of two kinds. The readers of entities ask a module
for nothing but symbols, so a registry and its tables alone go through them alike. Main statement:
`mirrors_readEntities`. -/
namespace BlockTally.Listing
open Read

/-- Both runs fail for one reason, or both end in one result with states of which `R` holds. -/
def SameRun {σ τ α : Type} (R : σ → τ → Prop) {ts : List Lexeme} (run : ReadResult σ α ts)
    (run' : ReadResult τ α ts) : Prop :=
  (∃ e, run = .error e ∧ run' = .error e) ∨
    ∃ a rest s t, run = .ok (a, rest, s) ∧ run' = .ok (a, rest, t) ∧ R s t

class Mirrors {σ τ α : Type} (R : σ → τ → Prop) (m : Read σ α) (m' : Read τ α) : Prop where
  run : ∀ ts s t, R s t → SameRun R (m ts s) (m' ts t)

section
variable {σ τ α β : Type} {R : σ → τ → Prop} {ts : List Lexeme}

theorem SameRun.failed (e : Failure Complaint) :
    SameRun R (.error e : ReadResult σ α ts) (.error e) := .inl ⟨e, rfl, rfl⟩

theorem SameRun.read {a : α} {rest : Rest ts} {s : σ} {t : τ} (related : R s t) :
    SameRun R (.ok (a, rest, s) : ReadResult σ α ts) (.ok (a, rest, t)) :=
  .inr ⟨a, rest, s, t, rfl, rfl, related⟩

theorem Mirrors.bind {m : Read σ α} {m' : Read τ α} {f : α → Read σ β} {f' : α → Read τ β}
    (first : Mirrors R m m') (second : ∀ a, Mirrors R (f a) (f' a)) :
    Mirrors R (m >>= f) (m' >>= f') where
  run ts s t related := by
    simp only [Bind.bind]
    rcases first.run ts s t related with ⟨e, here, there⟩ | ⟨a, ⟨rest, _⟩, s, t, here, there, related⟩
    · simp only [here, there]
      exact .failed e
    · simp only [here, there]
      rcases (second a).run rest s t related with ⟨e, here, there⟩ | ⟨b, _, s, t, here, there, related⟩
      · simp only [here, there]
        exact .failed e
      · simp only [here, there]
        exact .read related

instance {m : Read σ α} {m' : Read τ α} {f : α → Read σ β} {f' : α → Read τ β}
    [first : Mirrors R m m'] [second : ∀ a, Mirrors R (f a) (f' a)] :
    Mirrors R (m >>= f) (m' >>= f') := first.bind second

instance {p : Prop} [Decidable p] {m n : Read σ α} {m' n' : Read τ α} [Mirrors R m m']
    [Mirrors R n n'] : Mirrors R (if p then m else n) (if p then m' else n') := by
  split <;> infer_instance

instance (a : α) : Mirrors R (pure a) (pure a) := ⟨fun _ _ _ related => .read related⟩

instance (start : Option Nat) (cause : Cause) :
    Mirrors R (refuseAt start cause : Read σ α) (refuseAt start cause) :=
  ⟨fun _ _ _ _ => .failed _⟩

instance : Mirrors R (outOfRange : Read σ α) outOfRange := ⟨fun _ _ _ _ => .failed _⟩

instance (found : Option α) : Mirrors R (present found) (present found) := by
  cases found <;> unfold present <;> infer_instance

instance : Mirrors R ahead ahead := ⟨fun _ _ _ related => .read related⟩

instance (f : (ts : List Lexeme) → Rest ts) : Mirrors R (advance f) (advance f) :=
  ⟨fun _ _ _ related => .read related⟩

private theorem mirrors_state {f : σ → Read σ β} {f' : τ → Read τ β}
    (second : ∀ s t, R s t → Mirrors R (f s) (f' t)) : Mirrors R (state >>= f) (state >>= f') where
  run ts s t related := by
    simp only [Bind.bind, state]
    rcases (second s t related).run ts s t related with
      ⟨e, here, there⟩ | ⟨b, _, s, t, here, there, related⟩
    · simp only [here, there]
      exact .failed e
    · simp only [here, there]
      exact .read related

private theorem mirrors_update {f : σ → σ} {f' : τ → τ} (keeps : ∀ s t, R s t → R (f s) (f' t)) :
    Mirrors R (update f) (update f') := ⟨fun _ s t related => .read (keeps s t related)⟩

instance {m : Read σ α} {m' : Read τ α} [once : Mirrors R m m'] :
    Mirrors R (traced m) (traced m') where
  run ts s t related := by
    unfold traced
    rcases once.run ts s t related with ⟨e, here, there⟩ | ⟨a, _, s, t, here, there, related⟩
    · simp only [here, there]
      exact .failed e
    · simp only [here, there]
      exact .read related

instance {m : Read σ Unit} {m' : Read τ Unit} [Mirrors R m m'] : Mirrors R (taken m) (taken m') := by
  unfold taken; infer_instance

theorem Mirrors.loop {pick : α → Lexeme → List Lexeme → Option β} {body : β → α → Read σ α}
    {body' : β → α → Read τ α} {a : α} (each : ∀ b a, Mirrors R (body b a) (body' b a)) :
    Mirrors R (whileNext pick body a) (whileNext pick body' a) where
  run ts s t related := by
    suffices rounds : ∀ (n : Nat) (a : α) (ts : List Lexeme) (s : σ) (t : τ), ts.length ≤ n → R s t →
        SameRun R (whileNext.go pick body a ts s) (whileNext.go pick body' a ts t) from
      rounds _ a ts s t (Nat.le_refl _) related
    intro n
    induction n with
    | zero =>
      intro a ts s t size related
      obtain rfl := List.eq_nil_of_length_eq_zero (Nat.le_zero.mp size)
      rw [whileNext.go, whileNext.go]
      exact .read related
    | succ n ih =>
      intro a ts s t size related
      cases ts with
      | nil =>
        rw [whileNext.go, whileNext.go]
        exact .read related
      | cons first ts =>
        rw [whileNext.go, whileNext.go]
        cases pick a first ts with
        | none => exact .read related
        | some b =>
          rcases (each b a).run ts s t related with
            ⟨e, here, there⟩ | ⟨c, ⟨rest, suffix⟩, s, t, here, there, related⟩
          · simp only [here, there]
            exact .failed e
          · have shorter := suffix.length_le
            simp only [here, there]
            rcases ih c rest s t (by simp at size; omega) related with
              ⟨e, here, there⟩ | ⟨d, _, s, t, here, there, related⟩
            · simp only [here, there]
              exact .failed e
            · simp only [here, there]
              exact .read related

instance {pick : α → Lexeme → List Lexeme → Option β} {body : β → α → Read σ α}
    {body' : β → α → Read τ α} {a : α} [each : ∀ b a, Mirrors R (body b a) (body' b a)] :
    Mirrors R (whileNext pick body a) (whileNext pick body' a) := .loop each

instance (opening closing : Punct) (start : Option Nat) (cause : Cause) :
    Mirrors R (closeGroup opening closing start cause) (closeGroup opening closing start cause) where
  run ts s t related := by
    unfold closeGroup
    cases afterGroup opening closing 1 ts with
    | none => exact .failed _
    | some rest => exact .read related

/-! The steps that look at no state. -/

instance : Mirrors R peek peek := by unfold peek; infer_instance

instance : Mirrors R peekToken peekToken := by unfold peekToken; infer_instance

instance : Mirrors R place place := by unfold place; infer_instance

instance (cause : Cause) : Mirrors R (refuse cause : Read σ α) (refuse cause) := by
  unfold refuse; infer_instance

instance (what : Wanted) : Mirrors R (unexpected what : Read σ α) (unexpected what) := by
  unfold unexpected; infer_instance

instance : Mirrors R skip skip := by unfold skip; infer_instance

instance (p : Lexeme → Bool) : Mirrors R (skipWhile p) (skipWhile p) := by
  unfold skipWhile; infer_instance

instance (f : Token → Option α) : Mirrors R (accept f) (accept f) :=
  .bind inferInstance fun next => by cases next.bind f <;> infer_instance

instance (what : Wanted) (f : Token → Option α) : Mirrors R (demand what f) (demand what f) :=
  .bind inferInstance fun found => by cases found <;> infer_instance

instance (t : Token) : Mirrors R (eat t) (eat t) := by unfold eat; infer_instance

instance (t : Token) : Mirrors R (expect t) (expect t) := by unfold expect; infer_instance

instance (what : Wanted) : Mirrors R (word what) (word what) := by unfold word; infer_instance

instance (opening closing : Punct) : Mirrors R (group opening closing) (group opening closing) := by
  unfold group; infer_instance

instance : Mirrors R optionalGroup optionalGroup := by unfold optionalGroup; infer_instance

instance : Mirrors R readTy readTy :=
  .bind inferInstance fun start => .bind inferInstance fun next => by
    split
    · split <;> infer_instance
    all_goals infer_instance

instance (ty : Ty) : Mirrors R (readConstant? ty) (readConstant? ty) :=
  .bind inferInstance fun next => by split <;> infer_instance

instance : Mirrors R readWord32 readWord32 :=
  .bind inferInstance fun start => .bind inferInstance fun value => by split <;> infer_instance

instance : Mirrors R skipAttributes skipAttributes :=
  .loop fun attr _ => by cases attr <;> infer_instance

section
variable (src : List Char)

instance (ts : List Lexeme) : Mirrors R (readSpan src ts) (readSpan src ts) := by
  unfold readSpan; infer_instance

instance (offset : Nat) : Mirrors R (restOfLine src offset) (restOfLine src offset) := by
  unfold restOfLine; infer_instance

instance (offset : Nat) : Mirrors R (lineText src offset) (lineText src offset) := by
  unfold lineText; infer_instance

instance (word : String) (run : List Lexeme) (words : Words) :
    Mirrors R (addWord src word run words) (addWord src word run words) := by
  unfold addWord
  split <;> infer_instance

instance (isLast : String → Bool) (numbered : Bool) :
    Mirrors R (readWords src isLast numbered) (readWords src isLast numbered) := by
  unfold readWords
  infer_instance

instance (f : Function) : Mirrors R (readParam src f) (readParam src f) := by
  refine .bind inferInstance fun dots => ?_
  split
  · infer_instance
  · refine .bind inferInstance fun ty => .bind inferInstance fun took =>
      .bind inferInstance fun attrs => .bind inferInstance fun next => ?_
    split <;> infer_instance

instance (f : Function) : Mirrors R (readSlots src f) (readSlots src f) := by
  unfold readSlots; infer_instance

instance (words : Words) : Mirrors R (readSignature src words) (readSignature src words) := by
  rw [readSignature_eq, readSignature_eq]
  infer_instance

instance : Mirrors R (readHeader src) (readHeader src) :=
  .bind inferInstance fun words => .bind inferInstance fun next => by split <;> infer_instance

instance : Mirrors R readQuoted readQuoted := by unfold readQuoted; infer_instance

instance (first : Lexeme) : Mirrors R (readNode src first) (readNode src first) := by
  unfold readNode; infer_instance

end

end

/-! The readers of entities, over a registry and over its tables. -/

/-- The module is that of the registry, whose map agrees with it; the same bodies are left. -/
structure DraftOf.Shows (d : DraftOf Registry) (d' : Draft) : Prop where
  module : d.module.module = d'.module
  agrees : d.module.Agrees
  bodies : d.bodies = d'.bodies

section
variable (src : List Char)

private theorem mirrors_enter {α : Type} (start : Nat) {edit : Edit Registry EditError α}
    {edit' : Edit Module EditError α} (tracks : Registry.Tracks edit edit') :
    Mirrors DraftOf.Shows (enter start edit) (enter start edit') := by
  refine mirrors_state fun d d' shows => ?_
  obtain ⟨result, module, agrees, -⟩ := tracks d.module shows.agrees
  rw [shows.module] at result module
  rcases here : edit d.module with ⟨failed | a, r⟩ <;>
    rcases there : edit' d'.module with ⟨failed' | b, m⟩ <;>
      simp only [here, there] at result module agrees ⊢ <;> cases result
  · cases failed <;> infer_instance
  · exact .bind (mirrors_update fun e e' now => ⟨module, agrees, now.bodies⟩) fun _ => inferInstance

private theorem mirrors_alter {f : Module → Module}
    (keeps : ∀ m name, (f m).symbol? name = m.symbol? name) :
    Mirrors DraftOf.Shows (alter f) (alter f) := by
  refine mirrors_update fun d d' shows => ⟨congrArg f shows.module, fun name => ?_, shows.bodies⟩
  exact (shows.agrees name).trans (keeps d.module.module name).symm

instance (start : Nat) (f : Function) : Mirrors DraftOf.Shows
    (enter start (Register.addFunction f)) (enter start (Register.addFunction f)) :=
  mirrors_enter start (Registry.addFunction_tracks f)

instance (start : Nat) (g : Global) : Mirrors DraftOf.Shows
    (enter start (Register.addGlobal g)) (enter start (Register.addGlobal g)) :=
  mirrors_enter start (Registry.addGlobal_tracks g)

instance (first : Lexeme) :
    Mirrors DraftOf.Shows (readDeclaration src first) (readDeclaration src first) := by
  refine .bind inferInstance fun (f, header) => ?_
  dsimp only
  cases (first :: header).getLast? <;> infer_instance

/-- What stands behind an opening brace is left for later. -/
private def leaveBody {M : Type} [Register M] (start : Nat) (f : Function) : Read (DraftOf M) Unit := do
  let body ← ahead
  closeGroup .lbrace .rbrace (some start) .unterminatedBody
  let id ← enter start (Register.addFunction f)
  update fun draft => { draft with bodies := draft.bodies ++ [(id, body)] }

private theorem mirrors_leaveBody (start : Nat) (f : Function) :
    Mirrors DraftOf.Shows (leaveBody start f) (leaveBody start f) :=
  .bind inferInstance fun body => .bind inferInstance fun _ => .bind inferInstance fun id =>
    mirrors_update fun _ _ shows => { shows with bodies := by rw [shows.bodies] }

instance (start : Nat) : Mirrors DraftOf.Shows (readDefinition src start) (readDefinition src start) := by
  refine .bind inferInstance fun f => .bind inferInstance fun took => .bind inferInstance fun trail =>
    .bind inferInstance fun opened => ?_
  dsimp only
  split
  · exact .bind inferInstance fun _ => mirrors_leaveBody start _
  · exact mirrors_leaveBody start _

instance (start : Nat) (name : String) :
    Mirrors DraftOf.Shows (readGlobal src start name) (readGlobal src start name) := by
  refine .bind inferInstance fun _ => .bind inferInstance fun words => .bind inferInstance fun last =>
    .bind inferInstance fun ty => .bind inferInstance fun initial => .bind inferInstance fun align => ?_
  dsimp only
  infer_instance

instance : Mirrors DraftOf.Shows readTarget readTarget := by
  refine .bind inferInstance fun start => .bind inferInstance fun property =>
    .bind inferInstance fun _ => .bind inferInstance fun text => ?_
  split
  · exact mirrors_alter fun _ _ => rfl
  · exact mirrors_alter fun _ _ => rfl
  · infer_instance

instance (first : Lexeme) : Mirrors DraftOf.Shows (readEntity src first) (readEntity src first) := by
  unfold readEntity
  split
  · exact .bind inferInstance fun _ => .bind inferInstance fun _ => mirrors_alter fun _ _ => rfl
  · infer_instance
  · infer_instance
  · infer_instance
  · exact .bind inferInstance fun _ => .bind inferInstance fun _ => mirrors_alter fun _ _ => rfl
  · infer_instance
  · infer_instance
  · exact .bind inferInstance fun _ => .bind inferInstance fun _ => mirrors_alter fun _ _ => rfl
  · exact .bind inferInstance fun _ => mirrors_alter fun _ _ => rfl
  · exact .bind inferInstance fun _ => mirrors_alter fun _ _ => rfl
  · infer_instance

/-- Entities are read into a registry as they are read into its tables alone. -/
theorem mirrors_readEntities : Mirrors DraftOf.Shows (readEntities src) (readEntities src) := by
  unfold readEntities
  infer_instance

end

end BlockTally.Listing
