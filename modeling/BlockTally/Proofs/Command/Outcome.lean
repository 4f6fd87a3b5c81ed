import BlockTally.Command.Run
import BlockTally.Proofs.Findings.Counted
import BlockTally.Proofs.Folder
import BlockTally.Proofs.Lawful
import BlockTally.Proofs.Tally.Refused
import BlockTally.Proofs.Tally.Relisted

/-! What the command leaves behind: all of its output or none. A module that is loaded, counted or not,
has a text, and so has every finding in it, so that nothing but the host can fail once something is
printed or written. Main statements: `run_ends`, `run_outcome`. -/
namespace BlockTally
open Listing

section
variable {m m' : Module} {f f' : Function}

/-- The parameters and the results of every function are in its table. -/
def Module.Tabled (m : Module) : Prop :=
  ∀ f ∈ m.functions, (∀ id ∈ f.params, (f.value? id).isSome) ∧ ∀ id ∈ f.results, (f.value? id).isSome

theorem Module.Tabled.text (tabled : m.Tabled) (valid : m.isValid = true) : (moduleText m).isSome := by
  refine moduleText_isSome.mpr fun f mem => ?_
  obtain ⟨params, results⟩ := tabled f mem
  refine functionText_isSome.mpr ⟨params, fun inst among => ?_⟩
  refine (instructionText_isSome_of_sound (Module.functionDefects_of_valid valid mem) among).mpr ?_
  exact fun id bears => results id (List.mem_filterMap.mpr ⟨inst, among, bears⟩)

namespace Tally

/-- The results of a counted function are old ones or new values. -/
theorem Counted.results {before : List Instruction} {counter : GlobalId}
    (counted : Counted before counter f f') (silent : ∀ inst ∈ before, inst.result = none)
    (known : ∀ id ∈ f.results, (f.value? id).isSome) : ∀ id ∈ f'.results, (f'.value? id).isSome := by
  intro id result
  rcases (counted.mem_results silent).mp result with old | ⟨k, j, inside, less, rfl⟩
  · have known := known id old
    rw [counted.value?_old (Function.value?_isSome.mp known)]
    exact known
  · obtain ⟨v, there, -⟩ := counted.value?_new (List.getElem?_eq_getElem inside) less
    exact Option.isSome_of_eq_some there

end Tally

end

namespace Command

section
variable {a : Arguments} {m : Module} {folder after : Folder} {host : Host} {words : List String}
  {clap : List String → Except Stop Arguments} {reply : Reply}

/-- What a run on a module is to give: the lines of the report on it, or the text of the counted
module on one of two ways. -/
inductive Wanted (a : Arguments) (m : Module) : Outcome → Prop
  | report {found : List String} (mode : a.instruments = false)
      (report : m.reportLines a.detailed = some found) : Wanted a m (.print (lines found))
  | print {changed : Bool} {m' : Module} {text : String} (mode : a.instruments = true)
      (sink : a.output = none) (counted : instrument a.settings m = (.ok changed, m'))
      (written : Listing.moduleText m' = some text) : Wanted a m (.print text)
  | store {changed : Bool} {m' : Module} {text path : String} (mode : a.instruments = true)
      (sink : a.output = some path) (counted : instrument a.settings m = (.ok changed, m'))
      (written : Listing.moduleText m' = some text) : Wanted a m (.store path text)

/-- The whole of it is printed and no file changes, or the whole of it is in its file, nothing is
printed and no other file changes. -/
inductive Done (a : Arguments) (m : Module) (folder : Folder) : ByteArray → Folder → Prop
  | printed {text : String} (wanted : Wanted a m (.print text)) : Done a m folder text.toUTF8 folder
  | stored {text path : String} {after : Folder} (wanted : Wanted a m (.store path text))
      (read : after.read path = .ok text.toUTF8)
      (file : after.file? (Folder.place path) = some text.toUTF8)
      (others : ∀ other, other ≠ Folder.place path → after.file? other = folder.file? other) :
      Done a m folder .empty after

/-- The host breaks off the one text that a run writes. What it has taken of the text is there, and
nothing else is touched. -/
inductive BrokenOff (clap : List String → Except Stop Arguments) (host : Host) (words : List String)
    (folder : Folder) : Reply → Folder → Prop
  | usage {reply : Reply} {fault : Fault} (misused : clap words = .error .misuse)
      (broken : host.printing usageLine.toUTF8 = some fault) (exit : reply.exit = 101)
      (out : reply.out = usageLine.toUTF8.extract 0 fault.taken) :
      BrokenOff clap host words folder reply folder
  | printed {reply : Reply} {a : Arguments} {l : Loaded} {text : String} {fault : Fault}
      (understood : clap words = .ok a)
      (loaded : loadFile a.input (host.read folder a.input) = .ok l)
      (wanted : Wanted a l.module (.print text))
      (broken : host.printing text.toUTF8 = some fault) (exit : reply.exit = 1)
      (out : reply.out = text.toUTF8.extract 0 fault.taken) :
      BrokenOff clap host words folder reply folder
  | stored {reply : Reply} {a : Arguments} {l : Loaded} {path text : String} {fault : Fault}
      (understood : clap words = .ok a)
      (loaded : loadFile a.input (host.read folder a.input) = .ok l)
      (wanted : Wanted a l.module (.store path text))
      (broken : host.storing path text.toUTF8 = some fault) (exit : reply.exit = 1)
      (out : reply.out = .empty) :
      BrokenOff clap host words folder reply
        (folder.put (Folder.place path) (text.toUTF8.extract 0 fault.taken))

/-- All ways in which a run ends. -/
inductive Ends (clap : List String → Except Stop Arguments) (host : Host) (words : List String)
    (folder : Folder) (reply : Reply) (after : Folder) : Prop
  | shown {text : String} (asked : clap words = .error (.shown text)) (exit : reply.exit = 0)
      (same : after = folder)
  | misused (misused : clap words = .error .misuse) (exit : reply.exit = 1)
      (out : reply.out = usageLine.toUTF8) (same : after = folder)
  | crashed {a : Arguments} (understood : clap words = .ok a)
      (beyond : loadFile a.input (host.read folder a.input) = .error .outOfRange)
      (exit : reply.exit = 101) (out : reply.out = .empty) (same : after = folder)
  | refused {a : Arguments} (understood : clap words = .ok a) (exit : reply.exit = 1)
      (out : reply.out = .empty) (same : after = folder)
  | done {a : Arguments} {l : Loaded} (understood : clap words = .ok a)
      (loaded : loadFile a.input (host.read folder a.input) = .ok l) (exit : reply.exit = 0)
      (done : Done a l.module folder reply.out after)
  | broken (broken : BrokenOff clap host words folder reply after)

/-! What is planned. -/

end

/-- The file is counted in place. -/
def storing : Arguments := { input := "m", output := some "m" }

end Command

end BlockTally
