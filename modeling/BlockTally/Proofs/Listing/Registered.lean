import BlockTally.Proofs.Listing.Mirrored
import BlockTally.Proofs.Listing.Parsed

/-! What reading a text leaves, told without the map from names to symbols: the registry that the text
fills agrees with its tables all the way. Main statements: `parse_eq`, `parse_read`. -/
namespace BlockTally.Listing
open Read

section
variable {src : List Char} {r : Registry} {m : Module} {ts : List Lexeme}

/-- A body is read into a registry as it is read into its tables, also while a function without a
name stands in the place of the one that is filled. -/
theorem fillFunction_registered {b : FuncId × List Lexeme} {bodies : List (FuncId × List Lexeme)}
    (agrees : r.Agrees) (known : PartlyFilled src (b :: bodies) r.module) :
    (∃ e, fillFunction r b = .error e ∧ fillFunction r.module b = .error e) ∨
      ∃ r', fillFunction r b = .ok r' ∧ fillFunction r.module b = .ok r'.module ∧ r'.Agrees := by
  obtain ⟨id, body⟩ := b
  obtain ⟨-, f, found, headed, -⟩ := known.left _ List.mem_cons_self
  have lent := Registry.lend_eq_some.mpr ⟨found, rfl⟩
  have names : Registry.symbol? { r with module := r.module.setFunction id { name := "", ret := .void } } =
      r.module.symbol? := funext agrees
  have run : fillFunction r (id, body) = (readBody r.module.symbol? body { function := f } >>= fun q =>
      Failure.present (Registry.giveBack id q.2.2.function
        { r with module := r.module.setFunction id { name := "", ret := .void } })) := by
    change (Failure.present (r.lend id) >>= fun lent => _) = _
    rw [lent, ← names]
    rfl
  have run' : fillFunction r.module (id, body) = (readBody r.module.symbol? body { function := f } >>=
      fun q => .ok (r.module.setFunction id q.2.2.function)) := by
    rw [fillFunction_eq, found]
    rfl
  rw [run, run']
  cases reading : readBody r.module.symbol? body { function := f } with
  | error e => exact .inl ⟨e, rfl, rfl⟩
  | ok q =>
    obtain ⟨u, rest, scope⟩ := q
    obtain ⟨-, filled, -, -⟩ := readBody_filled headed.fresh (reads_of_eq_ok reading)
    obtain ⟨r', given, module, agrees'⟩ := agrees.giveBack lent filled.grown.steps.name_eq
    exact .inr ⟨r', Failure.present_eq_ok.mpr given, congrArg Except.ok module.symm, agrees'⟩

/-- All bodies, one after the other. -/
theorem bodies_registered {bodies : List (FuncId × List Lexeme)} (agrees : r.Agrees)
    (known : PartlyFilled src bodies r.module) :
    (∃ e, bodies.foldlM fillFunction r = .error e ∧ bodies.foldlM fillFunction r.module = .error e) ∨
      ∃ r', bodies.foldlM fillFunction r = .ok r' ∧
        bodies.foldlM fillFunction r.module = .ok r'.module ∧ r'.Agrees := by
  induction bodies generalizing r with
  | nil => exact .inr ⟨r, rfl, rfl, agrees⟩
  | cons b bodies ih =>
    simp only [List.foldlM_cons]
    rcases fillFunction_registered agrees known with ⟨e, here, there⟩ | ⟨r', here, there, agrees⟩
    · rw [here, there]
      exact .inl ⟨e, rfl, rfl⟩
    · rw [here, there]
      exact ih agrees (known.fill there)

/-- The tokens of a text make a registry that agrees with the module they make. -/
theorem readModule_registered (name : String) (lexed : lex src = .ok ts) :
    (∃ e, readModule (Registry.new name) src ts = .error e ∧ parseTokens name src ts = .error e) ∨
      ∃ r, readModule (Registry.new name) src ts = .ok r ∧
        parseTokens name src ts = .ok r.module ∧ r.Agrees := by
  have start : DraftOf.Shows { module := Registry.new name } { module := { name } } :=
    ⟨rfl, Registry.agrees_new name, rfl⟩
  unfold parseTokens readModule
  rcases (mirrors_readEntities src).run ts _ _ start with
    ⟨e, here, there⟩ | ⟨_, rest, d, d', here, there, shows⟩
  · rw [here, there]
    exact .inl ⟨e, rfl, rfl⟩
  · have known := (entities_read lexed (reads_of_eq_ok there)).1.partlyFilled
    rw [here, there]
    obtain ⟨module, bodies⟩ := d'
    obtain ⟨rfl, agrees, rfl⟩ := shows
    exact bodies_registered agrees known

end

private theorem parseRegistry_eq (name text : String) :
    parseRegistry name text = (match lex text.toList with
    | .error offset => .error (complain text.toList (.refused ⟨some offset, .unrecognized⟩))
    | .ok ts => (readModule (Registry.new name) text.toList ts).mapError (complain text.toList)) := rfl

theorem parse_eq (name text : String) : parse name text = (match lex text.toList with
    | .error offset => .error (complain text.toList (.refused ⟨some offset, .unrecognized⟩))
    | .ok ts => (parseTokens name text.toList ts).mapError (complain text.toList)) := by
  rw [parse, parseRegistry_eq]
  cases lexed : lex text.toList with
  | error offset => rfl
  | ok ts =>
    rcases readModule_registered name lexed with ⟨e, here, there⟩ | ⟨r, here, there, -⟩ <;>
      simp only [here, there] <;> rfl

/-- The same for a text that is given by its characters. -/
theorem parse_ofList (name : String) (src : List Char) : parse name (.ofList src) = (match lex src with
    | .error offset => .error (complain src (.refused ⟨some offset, .unrecognized⟩))
    | .ok ts => (parseTokens name src ts).mapError (complain src)) := by
  rw [parse_eq, String.toList_ofList]

/-- The registry that a text fills agrees with the module that the text lists. -/
theorem parseRegistry_agrees {name text : String} {r : Registry}
    (ok : parseRegistry name text = .ok r) : parse name text = .ok r.module ∧ r.Agrees := by
  refine ⟨by rw [parse, ok]; rfl, ?_⟩
  rw [parseRegistry_eq] at ok
  cases lexed : lex text.toList with
  | error offset =>
    rw [lexed] at ok
    cases ok
  | ok ts =>
    simp only [lexed, Failure.mapError_eq_ok] at ok
    rcases readModule_registered name lexed with ⟨e, here, -⟩ | ⟨r', here, -, agrees⟩
    · cases here.symm.trans ok
    · cases here.symm.trans ok
      exact agrees

theorem fromUTF8?_toUTF8 (text : String) : String.fromUTF8? text.toUTF8 = some text :=
  dif_pos text.isValidUTF8

section
variable {m : Module}

theorem parse_eq_ok {name text : String} : parse name text = .ok m ↔ ∃ ts rest d,
    lex text.toList = .ok ts ∧
      Reads (readEntities text.toList) ts { module := { name } } () rest d ∧
      d.bodies.foldlM fillFunction d.module = .ok m := by
  rw [parse_eq]
  cases lexed : lex text.toList with
  | error offset => simp
  | ok ts =>
    simp only [Failure.mapError_eq_ok, parseTokens_eq_ok]
    simp

/-- What reading a text leaves, whatever the text was. -/
theorem parse_read {name text : String} (ok : parse name text = .ok m) : m.Built ∧ m.name = name ∧
    m.TextKept ∧ ∀ f ∈ m.functions, f.FromText m := by
  obtain ⟨ts, rest, d, lexed, read, filled⟩ := parse_eq_ok.mp ok
  obtain ⟨known, named⟩ := entities_read lexed read
  obtain ⟨whole, same⟩ := known.partlyFilled.run filled
  refine ⟨whole.built, same.trans named, whole.kept, fun f mem => ?_⟩
  obtain ⟨k, here⟩ := List.getElem?_of_mem mem
  exact whole.filled k f here (by simp)

end

end BlockTally.Listing
