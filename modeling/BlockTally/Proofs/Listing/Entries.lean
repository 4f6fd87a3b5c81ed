import BlockTally.Proofs.Listing.Globals
import BlockTally.Proofs.Listing.Headed

/-! What one top-level entity does to a draft. Main statement: `entity_read`. -/
namespace BlockTally.Listing
open Text Read

/-- Text of a node up to the end of its line. -/
structure NodeText (text : String) : Prop where
  flat : Flat text
  trim : trimmed text = text

/-- The text is what follows a sign on its line. -/
def NodeCut (src : List Char) (text : String) : Prop :=
  ∃ sign after, Source src (sign :: after) ∧
    text = trimmed (slice src sign.stop (lineEnd src sign.stop))

/-- One entity is entered. -/
inductive Entry (src : List Char) : Draft → Draft → Prop
  | filename (d : Draft) {text : String} (unquoted : Unquoted text) :
      Entry src d { d with module := { d.module with sourceFilename := some text } }
  | datalayout (d : Draft) {text : String} (unquoted : Unquoted text) :
      Entry src d { d with module := { d.module with datalayout := some text } }
  | triple (d : Draft) {text : String} (unquoted : Unquoted text) :
      Entry src d { d with module := { d.module with triple := some text } }
  | comdat (d : Draft) {text : String} (kept : KeptLine .comdatRef text) :
      Entry src d { d with module := d.module.addComdat text }
  | group (d : Draft) {text : String} (kept : KeptLine (.word "attributes") text) :
      Entry src d { d with module := d.module.addAttributeGroup text }
  | global (d : Draft) {g : Global} {id : GlobalId} {m : Module} (readable : GlobalReadable g)
      (stable : ∀ c ∈ g.initial, c.StableAt g.ty)
      (ok : d.module.addGlobal g = .ok (id, m)) : Entry src d { d with module := m }
  | declaration (d : Draft) {f : Function} {id : FuncId} {m : Module} (headed : f.Headed)
      (trail : ∃ ts, Raw f.attrs.trail ts ∧ ∀ u ∈ ts, u.start < firstLine f.attrs.trail.toList)
      (ok : d.module.addFunction f = .ok (id, m)) : Entry src d { d with module := m }
  | definition (d : Draft) {f : Function} {id : FuncId} {m : Module} (headed : f.Headed)
      (trail : ∃ ts, Raw f.attrs.trail ts ∧ ∀ u ∈ ts, u.token ≠ .punct .lbrace)
      (ok : d.module.addFunction f = .ok (id, m)) {brace : Lexeme} {extent after : List Lexeme}
      (opens : brace.token = .punct .lbrace) (source : Source src (brace :: (extent ++ after)))
      (ends : closes .lbrace .rbrace 1 (extent.map (·.token)) = true) :
      Entry src d { module := m, bodies := d.bodies ++ [(id, extent ++ after)] }
  | metadata (d : Draft) (node : UInt32) {text : String} (cut : NodeCut src text) :
      Entry src d { d with module := d.module.addMetadata node text }
  | named (d : Draft) {name text : String} (known : NodeName name) (cut : NodeCut src text) :
      Entry src d { d with module := d.module.addNamedMetadata name text }

/-- No node is entered. -/
def SameNodes (m m' : Module) : Prop :=
  m'.namedMetadata = m.namedMetadata ∧ m'.metadata = m.metadata

private theorem sameNodes_addGlobal {m m' : Module} {g : Global} {id : GlobalId}
    (ok : m.addGlobal g = .ok (id, m')) : SameNodes m m' := by
  obtain ⟨-, -, rfl⟩ := Module.addGlobal_eq_ok.mp ok
  exact ⟨rfl, rfl⟩

private theorem sameNodes_addFunction {m m' : Module} {f : Function} {id : FuncId}
    (ok : m.addFunction f = .ok (id, m')) : SameNodes m m' := by
  obtain ⟨-, -, rfl⟩ := Module.addFunction_eq_ok.mp ok
  exact ⟨rfl, rfl⟩

section
variable {σ : Type} {src : List Char} {ts rest : List Lexeme} {s s' : σ} {d d' : Draft}

theorem Source.start_lt_stop {t : Lexeme} (source : Source src (t :: ts)) : t.start < t.stop := by
  obtain ⟨before, lexed⟩ := source
  exact (lexed.start_le t (by simp)).2.1

/-- Behind a token no other starts before its end, which is a place between characters. -/
theorem Source.behind {t : Lexeme} (source : Source src (t :: ts)) :
    At src t.stop [] ∧ ∀ u ∈ ts, t.stop ≤ u.start := by
  obtain ⟨before, lexed⟩ := source
  obtain ⟨a, b, us, rfl, stop, -, -, rest⟩ := lexed.cut rfl
  rw [Nat.zero_add] at stop
  refine ⟨⟨a, b, rfl, stop.symm⟩, fun u mem => ?_⟩
  have bounds := rest.start_le u mem
  omega

private theorem eq_takeWhile_of_append {α : Type} {p : α → Bool} {front back : List α}
    (rest : back = (front ++ back).dropWhile p) : front = (front ++ back).takeWhile p := by
  have split := List.takeWhile_append_dropWhile (p := p) (l := front ++ back)
  rw [← rest] at split
  exact (List.append_cancel_right split).symm

theorem restOfLine_read {offset : Nat} {line : List Lexeme}
    (read : Reads (restOfLine src offset : Read σ (List Lexeme)) ts s line rest s') :
    s' = s ∧ ts = line ++ rest ∧ ∀ t ∈ line, t.start < lineEnd src offset := by
  obtain ⟨stop, _, _, found, taking⟩ := reads_bind.mp read
  obtain ⟨line_end, rfl, rfl⟩ := reads_present.mp found
  obtain ⟨passing, rfl⟩ := reads_taken.mp taking
  obtain ⟨behind, rfl⟩ := reads_skipWhile.mp passing
  refine ⟨rfl, rfl, fun t mem => ?_⟩
  rw [eq_takeWhile_of_append behind] at mem
  rw [lineEnd, line_end]
  simpa using List.mem_takeWhile_imp mem

private theorem lineText_read {offset : Nat} {text : String}
    (read : Reads (lineText src offset : Read σ String) ts s text rest s') : s' = s ∧
      ∃ line, ts = line ++ rest ∧ text = spanText src line ∧ ∀ t ∈ line, t.start < lineEnd src offset := by
  obtain ⟨line, _, _, taking, spanning⟩ := reads_bind.mp read
  obtain ⟨rfl, rfl, inside⟩ := restOfLine_read taking
  obtain ⟨rfl, rfl, rfl⟩ := spanning.spanned
  exact ⟨rfl, line, rfl, rfl, inside⟩

private theorem quoted_read {text : String} (source : Source src ts)
    (read : Reads (readQuoted : Read σ String) ts s text rest s') : s' = s ∧ Unquoted text := by
  obtain ⟨t, rfl, found, rfl⟩ := reads_demand.mp read
  have lettered := source.lettered t List.mem_cons_self
  cases token : t.token with
  | quoted name =>
    rw [token] at found lettered
    exact ⟨rfl, Option.some.inj found ▸ lettered⟩
  | _ =>
    rw [token] at found
    cases found

/-- The text of a token where it stands. -/
theorem Source.spelled {t : Lexeme} (source : Source src (t :: ts)) :
    ∃ text, Spelling text t.token ∧ At src t.start text ∧ t.stop = t.start + byteLength text ∧
      ∃ c more, text = c :: more ∧ c ≠ '\n' := by
  obtain ⟨pre, a, rfl, start, lexed⟩ := source.place
  obtain ⟨text, post, rfl, spelled, stop, first⟩ := lexed.first_of_start rfl
  exact ⟨text, spelled, ⟨pre, post, rfl, start.symm⟩, stop, first⟩

/-- No line ends where a token starts. -/
theorem Source.lt_lineEnd {t : Lexeme} (source : Source src (t :: ts)) :
    t.start < lineEnd src t.start := by
  obtain ⟨text, -, ⟨pre, post, rfl, start⟩, -, c, cs, rfl, other⟩ := source.spelled
  have := c.utf8Size_pos
  rw [← start, lineEnd_behind, firstLine, List.cons_append,
    List.takeWhile_cons_of_pos (by simpa using other), byteLength_cons]
  omega

/-- A run whose tokens start on the line of an earlier place. -/
theorem Source.rawLine {p : Nat} (run more : List Lexeme) (source : Source src (run ++ more))
    (earlier : At src p []) (behind : ∀ t ∈ run, p ≤ t.start)
    (inside : ∀ t ∈ run, t.start < lineEnd src p) :
    ∃ vs o, Raw (spanText src run) vs ∧ run = vs.map (·.shift o) ∧
      ∀ v ∈ vs, v.start < firstLine (spanText src run).toList := by
  obtain ⟨vs, o, raw, same, place⟩ := source.raw run more
  refine ⟨vs, o, raw, same, fun v mem => ?_⟩
  obtain ⟨first, others, rfl⟩ := List.exists_cons_of_ne_nil (List.ne_nil_of_mem mem)
  have some : run ≠ [] := by simp [same]
  have le : p ≤ o := by
    have here := behind (first.shift o) (by simp [same])
    simpa only [Lexeme.shift, raw.starts first rfl, Nat.add_zero] using here
  refine onLine raw (place some) earlier le v mem (inside _ ?_)
  rw [same]
  exact List.mem_map_of_mem mem

private theorem keptLine_of_read {first : Lexeme} {line : List Lexeme}
    (source : Source src (first :: (line ++ rest)))
    (inside : ∀ t ∈ line, t.start < lineEnd src first.start) :
    KeptLine first.token (spanText src (first :: line)) := by
  obtain ⟨pre, a, here, start, -⟩ := source.place
  have after : ∀ t ∈ first :: line, first.start ≤ t.start := by
    intro t mem
    rcases List.mem_cons.mp mem with rfl | mem
    · exact Nat.le_refl _
    · have := source.behind.2 t (List.mem_append_left _ mem)
      have := source.start_lt_stop
      omega
  obtain ⟨vs, o, raw, same, onLine⟩ := Source.rawLine (p := first.start) (first :: line) rest source
    ⟨pre, a, here, start.symm⟩ after (List.forall_mem_cons.mpr ⟨source.lt_lineEnd, inside⟩)
  cases vs with
  | nil => cases same
  | cons v vs =>
    obtain ⟨rfl, -⟩ := List.cons.inj same
    exact ⟨v, vs, raw, rfl, onLine⟩

/-- Attributes behind a declaration. -/
theorem trail_read {last : Lexeme} {line : List Lexeme}
    (source : Source src (last :: (line ++ rest)))
    (inside : ∀ t ∈ line, t.start < lineEnd src last.stop) :
    ∃ vs, Raw (spanText src line) vs ∧ ∀ v ∈ vs, v.start < firstLine (spanText src line).toList := by
  obtain ⟨earlier, behind⟩ := source.behind
  obtain ⟨vs, -, raw, -, onLine⟩ := (source.suffix (List.suffix_cons last _)).rawLine line rest
    earlier (fun t mem => behind t (List.mem_append_left _ mem)) inside
  exact ⟨vs, raw, onLine⟩

private theorem enter_read {α : Type} {a : α} {start : Nat} {edit : Edit Module EditError α}
    (read : Reads (enter start edit) ts d a rest d') :
    ∃ m, edit d.module = (.ok a, m) ∧ rest = ts ∧ d' = { d with module := m } := by
  simp only [enter, reads_bind, reads_state] at read
  obtain ⟨_, _, _, ⟨rfl, rfl, rfl⟩, last⟩ := read
  split at last
  · rename_i ok
    simp only [reads_bind, reads_update, reads_pure] at last
    obtain ⟨_, _, _, ⟨rfl, rfl⟩, rfl, rfl, rfl⟩ := last
    exact ⟨_, ok, rfl, rfl⟩
  · exact absurd last reads_refuseAt
  · exact absurd last reads_outOfRange

/-- The attributes behind a first line are text that says nothing about it. -/
theorem headed_trail {f : Function} (headed : f.Headed) (trail : String) :
    Function.Headed { f with attrs.trail := trail } :=
  { headed with built := headed.built.steps (.single (.setAttrs f _)) }

private theorem declared_read {start : Nat} {f : Function} {trail : String} (headed : f.Headed)
    (kept : ∃ vs, Raw trail vs ∧ ∀ v ∈ vs, v.start < firstLine trail.toList)
    (whole : Reads (do
      let _ ← enter start (Register.addFunction { f with attrs.trail := trail })) ts d u rest d') :
    Entry src d d' ∧ SameNodes d.module d'.module := by
  simp only [reads_bind, reads_pure] at whole
  obtain ⟨id, _, _, entered, -, rfl, rfl⟩ := whole
  obtain ⟨m, ok, rfl, rfl⟩ := enter_read entered
  have ok := Module.registerFunction_eq_ok.mp ok
  exact ⟨.declaration (f := { f with attrs.trail := trail }) _ (headed_trail headed _) kept ok,
    sameNodes_addFunction ok⟩

theorem declaration_read {first : Lexeme} (source : Source src (first :: ts))
    (whole : Reads (readDeclaration src first) ts d u rest d') :
    Entry src d d' ∧ SameNodes d.module d'.module := by
  obtain ⟨⟨f, header⟩, between, _, traced, more⟩ := reads_bind.mp whole
  obtain ⟨reading, rfl⟩ := reads_traced.mp traced
  obtain ⟨rfl, -, headed⟩ := header_read (source.suffix (List.suffix_cons first _)) reading
  obtain ⟨front, sign, took⟩ := (List.eq_nil_or_concat (first :: header)).resolve_left nofun
  rw [List.concat_eq_append] at took
  rw [← List.cons_append, took, List.append_assoc] at source
  dsimp only at more
  rw [took, List.getLast?_concat] at more
  obtain ⟨trail, _, _, taking, last⟩ := reads_bind.mp more
  obtain ⟨rfl, line, rfl, rfl, inside⟩ := lineText_read taking
  have behind : Source src (sign :: (line ++ _)) := source.right
  exact declared_read headed (trail_read behind inside) last

theorem definition_read {start : Nat} (source : Source src ts)
    (whole : Reads (readDefinition src start) ts d u rest d') :
    Entry src d d' ∧ SameNodes d.module d'.module := by
  obtain ⟨f, between, _, reading, more⟩ := reads_bind.mp whole
  obtain ⟨rfl, suffix, headed⟩ := header_read source reading
  obtain ⟨trail, _, _, taking, spans⟩ := reads_bind.mp more
  obtain ⟨skipped, rfl⟩ := reads_taken.mp taking
  obtain ⟨behind, rfl⟩ := reads_skipWhile.mp skipped
  obtain ⟨_, _, _, spanning, braced⟩ := reads_bind.mp spans
  obtain ⟨rfl, rfl, rfl⟩ := spanning.spanned
  have source := source.suffix suffix
  obtain ⟨open', _, _, eaten, last⟩ := reads_bind.mp braced
  cases open' with
  | false =>
    obtain ⟨_, _, _, refused, -⟩ := reads_bind.mp last
    exact absurd refused reads_refuseAt
  | true =>
    obtain ⟨brace, rfl, opens, rfl⟩ := reads_eaten eaten
    simp only [Bool.not_true, Bool.false_eq_true, if_false, reads_bind, reads_ahead,
      reads_closeGroup, reads_update] at last
    obtain ⟨_, _, _, ⟨rfl, rfl, rfl⟩, _, _, _, ⟨found, rfl⟩, id, _, _, entered, rfl, rfl⟩ := last
    obtain ⟨m, ok, rfl, rfl⟩ := enter_read entered
    have ok := Module.registerFunction_eq_ok.mp ok
    obtain ⟨extent, rfl, ends⟩ := afterGroup_eq_some.mp found
    obtain ⟨vs, o, raw, same, -⟩ := source.raw trail _
    refine ⟨.definition (f := { f with attrs.trail := spanText src trail }) _
      (headed_trail headed _) ⟨vs, raw, fun v mem => ?_⟩ ok opens source.right ends,
      sameNodes_addFunction ok⟩
    have passed : v.shift o ∈ trail := same ▸ List.mem_map_of_mem mem
    rw [eq_takeWhile_of_append behind] at passed
    simpa using List.mem_takeWhile_imp passed

theorem target_read (source : Source src ts) (whole : Reads readTarget ts d u rest d') :
    Entry src d d' ∧ SameNodes d.module d'.module := by
  rw [readTarget_eq] at whole
  simp only [reads_bind, reads_place, reads_word, reads_expect] at whole
  obtain ⟨_, _, _, ⟨rfl, rfl, rfl⟩, property, _, _, ⟨_, rfl, -, rfl⟩, _, _, _, ⟨_, rfl, -, rfl⟩, text,
    _, _, reading, sets⟩ := whole
  obtain ⟨rfl, unquoted⟩ := quoted_read
    (source.suffix ((List.suffix_cons _ _).trans (List.suffix_cons _ _))) reading
  unfold setTarget at sets
  split at sets
  · obtain ⟨-, rfl⟩ := reads_update.mp sets
    exact ⟨.datalayout _ unquoted, rfl, rfl⟩
  · obtain ⟨-, rfl⟩ := reads_update.mp sets
    exact ⟨.triple _ unquoted, rfl, rfl⟩
  · exact absurd sets reads_refuseAt

theorem filename_read (source : Source src ts)
    (whole : Reads (do
      expect (.punct .equals)
      let text ← readQuoted
      alter fun m => { m with sourceFilename := some text }) ts d u rest d') :
    Entry src d d' ∧ SameNodes d.module d'.module := by
  simp only [reads_bind, reads_expect] at whole
  obtain ⟨_, _, _, ⟨_, rfl, -, rfl⟩, text, _, _, reading, sets⟩ := whole
  obtain ⟨rfl, unquoted⟩ := quoted_read (source.suffix (List.suffix_cons _ _)) reading
  obtain ⟨-, rfl⟩ := reads_update.mp sets
  exact ⟨.filename _ unquoted, rfl, rfl⟩

private theorem dropWhile_front {α : Type} {p : α → Bool} {front cs : List α}
    (isFront : front <+: cs.dropWhile p) : front.dropWhile p = front := by
  cases front with
  | nil => rfl
  | cons c front =>
    obtain ⟨back, whole⟩ := isFront
    have first := List.head?_dropWhile_not p cs
    rw [← whole] at first
    rw [List.dropWhile_cons_of_neg (by simpa using first)]

/-- Nothing blank stands at either end of a trimmed text. -/
theorem trimmed_trimmed (text : String) : trimmed (trimmed text) = trimmed text := by
  unfold trimmed
  rw [String.toList_ofList]
  have back := List.dropWhile_suffix (l := (text.toList.dropWhile isBlank).reverse) isBlank
  have front := List.reverse_prefix.mpr back
  rw [List.reverse_reverse] at front
  rw [dropWhile_front front, List.reverse_reverse, dropWhile_front (List.prefix_refl _)]

private theorem mem_trimmed {text : String} {c : Char} (mem : c ∈ (trimmed text).toList) :
    c ∈ text.toList := by
  rw [trimmed, String.toList_ofList, List.mem_reverse] at mem
  have inside := (List.dropWhile_suffix isBlank).subset mem
  rw [List.mem_reverse] at inside
  exact (List.dropWhile_suffix isBlank).subset inside

/-- What stands between a place and the end of its line. -/
theorem flat_line {p : Nat} (place : At src p []) : Flat (slice src p (lineEnd src p)) := by
  obtain ⟨pre, post, rfl, rfl⟩ := place
  have piece := slice_append pre (post.takeWhile (· != '\n')) (post.dropWhile (· != '\n'))
  rw [List.takeWhile_append_dropWhile] at piece
  rw [List.nil_append, lineEnd_behind, firstLine, piece, Flat, String.toList_ofList]
  exact fun c mem => by simpa using List.mem_takeWhile_imp mem

theorem NodeCut.text {text : String} (cut : NodeCut src text) : NodeText text := by
  obtain ⟨sign, after, source, rfl⟩ := cut
  exact ⟨fun c mem => flat_line source.behind.1 c (mem_trimmed mem), trimmed_trimmed _⟩

theorem node_read {first : Lexeme} {text : String} (source : Source src ts)
    (whole : Reads (readNode src first : Read σ String) ts s text rest s') : s' = s ∧ NodeCut src text := by
  obtain ⟨took, _, _, taking, read⟩ := reads_bind.mp whole
  obtain ⟨reading, rfl⟩ := reads_taken.mp taking
  obtain ⟨sign, same, -, rfl⟩ := reads_expect.mp reading
  obtain rfl : took = [sign] := List.append_cancel_right same
  simp only [reads_bind, reads_present, reads_pure] at read
  obtain ⟨_, _, _, ⟨last, rfl, rfl⟩, stop, _, _, ⟨line_end, rfl, rfl⟩, _, _, _, line, piece, _, _,
    ⟨found, rfl, rfl⟩, rfl, rfl, rfl⟩ := read
  obtain ⟨rfl, -, -⟩ := restOfLine_read line
  obtain rfl : sign = _ := Option.some.inj last
  refine ⟨rfl, sign, _, source, ?_⟩
  rw [lineEnd, line_end, Option.getD_some, slice, found, Option.getD_some]

/-- Where a run stands: no token behind it starts before it ends. -/
theorem SpanIn.placed {text : String} (source : Source src ts) (span : SpanIn src ts rest text) :
    ∃ q, At src q text.toList ∧ (∃ t ∈ ts, t.start = q) ∧
      ∀ u ∈ rest, q + byteLength text.toList ≤ u.start := by
  obtain ⟨run, more, some, rfl, inside, later⟩ := span
  have source := source.suffix inside
  obtain ⟨vs, q, raw, same, place⟩ := source.raw run more
  have nonempty : vs ≠ [] := by
    rintro rfl
    exact some same
  refine ⟨q, place some, ?_, fun u mem => ?_⟩
  · obtain ⟨first, others, rfl⟩ := List.exists_cons_of_ne_nil nonempty
    refine ⟨first.shift q, inside.subset (by simp [same]), ?_⟩
    rw [Lexeme.shift, raw.starts first rfl, Nat.add_zero]
  · obtain ⟨front, last, rfl⟩ := (List.eq_nil_or_concat vs).resolve_left nonempty
    rw [List.concat_eq_append] at same raw
    rw [same, List.map_append, List.append_assoc] at source
    have behind : Source src (last.shift q :: more) := source.right
    have stop := raw.stops last List.getLast?_concat
    have bound := behind.behind.2 u (later.subset mem)
    rwa [Lexeme.shift, stop] at bound

private theorem flat_intercalate {texts : List String} (flat : ∀ text ∈ texts, Flat text) :
    Flat (" ".intercalate texts) := by
  induction texts with
  | nil => decide
  | cons text texts ih =>
    obtain ⟨first, others⟩ := List.forall_mem_cons.mp flat
    cases texts with
    | nil => simpa using first
    | cons next texts =>
      rw [String.intercalate_cons_cons]
      exact (first.append (by decide)).append (ih others)

theorem NameSpelling.mem {cs : List Char} {name : String} (named : NameSpelling cs name) {c : Char}
    (mem : c ∈ name.toList) : c ∈ cs := by
  cases named with
  | bare some plain => rwa [String.toList_ofList] at mem
  | quoted inside =>
    rw [String.toList_ofList] at mem
    simp [mem]

/-- Tokens behind a name on its line, with the words that stand between. -/
theorem attachments_read {first : Lexeme} {name : String} {words : Words} {line : List Lexeme}
    (source : Source src (first :: ts)) (sign : first.token = .globalName name)
    (spans : ∀ text ∈ words.others, SpanIn src ts (line ++ rest) text)
    (inside : ∀ t ∈ line, t.start < lineEnd src first.start) (some : line ≠ [])
    (suffix : line ++ rest <:+ ts) :
    Flat name ∧ Flat (" ".intercalate words.others) ∧ ∃ vs o, Raw (spanText src line) vs ∧
      line = vs.map (·.shift o) ∧ ∀ v ∈ vs, v.start < firstLine (spanText src line).toList := by
  obtain ⟨text, spelled, place, stop, -⟩ := source.spelled
  have here : At src first.start [] := place.left (a := [])
  have behind := source.behind.2
  have left : Source src ts := source.suffix (List.suffix_cons first ts)
  obtain ⟨next, others, rfl⟩ := List.exists_cons_of_ne_nil some
  have next_inside := inside next List.mem_cons_self
  have next_behind := behind next (suffix.subset List.mem_cons_self)
  refine ⟨?_, flat_intercalate fun word mem => ?_, ?_⟩
  · rw [sign] at spelled
    cases spelled with
    | globalName named =>
      have flat := flat_onLine here next_inside place (Nat.le_refl _) (by omega)
      exact fun c mem => flat c (.tail _ (named.mem mem))
    | word plain known => simpa using wordToken?_cases known
  · obtain ⟨q, stands, ⟨t, among, rfl⟩, before⟩ := (spans word mem).placed left
    have after := behind t among
    have short := before next (List.mem_append_left _ List.mem_cons_self)
    exact flat_onLine here next_inside stands (by omega) short
  · refine (left.suffix suffix).rawLine _ _ here (fun t mem => ?_) inside
    have after := behind t (suffix.subset (List.mem_append_left _ mem))
    omega

/-- No alignment follows those that are read. -/
theorem align_read {align : Option UInt32} (read : Reads (readAlign : Read σ _) ts s align rest s') :
    s' = s ∧ rest <:+ ts ∧ ∀ t more, rest = t :: more → t.token = .punct .comma →
      more.head?.map Lexeme.token ≠ some (.word "align") := by
  have rounds := reads_whileNext.mp read
  refine ⟨?_, read.suffix, fun t more here comma next => ?_⟩
  · refine rounds.preserves (P := fun _ _ now => now = s) ?_ rfl
    rintro _ t left now _ _ between after - rfl round
    obtain ⟨_, _, _, skipped, last⟩ := reads_bind.mp round
    obtain ⟨rfl, rfl⟩ := reads_skip.mp skipped
    simp only [reads_bind, reads_pure] at last
    obtain ⟨_, _, _, number, -, -, rfl⟩ := last
    exact (readWord32_passes number).2
  · have stopped := rounds.ends t more here
    simp [comma, next] at stopped

theorem global_read {first : Lexeme} {name : String} (source : Source src (first :: ts))
    (sign : first.token = .globalName name)
    (whole : Reads (readGlobal src first.start name) ts d u rest d') :
    Entry src d d' ∧ SameNodes d.module d'.module := by
  have unquoted : Unquoted name := by
    have lettered := source.lettered first List.mem_cons_self
    rwa [sign] at lettered
  unfold readGlobal at whole
  simp only [reads_bind, reads_expect, reads_word] at whole
  obtain ⟨_, _, _, ⟨equals, rfl, -, rfl⟩, words, _, _, qualifying, last, _, _, ⟨head, rfl, -, rfl⟩, ty,
    _, _, type, initial, _, _, value, align, between, _, aligned, found, _, _, eaten, more⟩ := whole
  have left := source.suffix ((List.suffix_cons _ _).trans (List.suffix_cons _ _))
  obtain ⟨rfl, suffix, collected, spans⟩ := words_read left qualifying
  have kept : KeptWords false isVariableWord (" ".intercalate words.others) := collected.kept
  obtain ⟨-, rfl, inRange⟩ := readTy_passes type
  obtain ⟨-, rfl, stable⟩ := readConstant?_passes value
  have readable := fun c mem => (stable c mem).readable
  obtain ⟨rfl, behind, other⟩ := align_read aligned
  have further := behind.trans (value.suffix.trans (type.suffix.trans (List.suffix_cons head _)))
  cases found with
  | false =>
    obtain ⟨-, rfl⟩ := eat_passes rfl eaten
    simp only [Bool.false_eq_true, if_false, reads_bind, reads_pure] at more
    obtain ⟨_, _, _, ⟨rfl, rfl, rfl⟩, id, _, _, entered, -, rfl, rfl⟩ := more
    obtain ⟨m, ok, rfl, rfl⟩ := enter_read entered
    have ok := Module.registerGlobal_eq_ok.mp ok
    refine ⟨.global _ ?_ stable ok, sameNodes_addGlobal ok⟩
    exact ⟨unquoted, inRange, readable, kept, fun some => absurd rfl some⟩
  | true =>
    obtain ⟨comma, rfl, same, rfl⟩ := reads_eaten eaten
    simp only [if_true, reads_bind, reads_pure] at more
    obtain ⟨_, _, _, taking, id, _, _, entered, -, rfl, rfl⟩ := more
    obtain ⟨rfl, line, rfl, rfl, inside⟩ := lineText_read taking
    obtain ⟨m, ok, rfl, rfl⟩ := enter_read entered
    have ok := Module.registerGlobal_eq_ok.mp ok
    have here := (List.suffix_cons comma (line ++ rest)).trans further
    have nonempty : spanText src line ≠ "" → line ≠ [] := by
      rintro some rfl
      exact some rfl
    refine ⟨.global _ ?_ stable ok, sameNodes_addGlobal ok⟩
    refine ⟨unquoted, inRange, readable, kept, fun some => ?_⟩
    obtain ⟨name_flat, words_flat, vs, o, raw, shifted, onLine⟩ := attachments_read source sign
      (fun text mem => (spans text mem).mono (List.suffix_cons equals _) here) inside
      (nonempty some) ((here.trans suffix).trans (List.suffix_cons equals _))
    refine ⟨?_, name_flat, words_flat⟩
    cases vs with
    | nil => exact absurd shifted (nonempty some)
    | cons v vs =>
      refine ⟨v, vs, raw, fun align => other comma _ rfl same ?_, onLine⟩
      rw [shifted, List.map_cons, List.cons_append, List.head?_cons, Option.map_some,
        Lexeme.shift_token, align]

/-- One entity. -/
theorem entity_read {first : Lexeme} (source : Source src (first :: ts))
    (whole : Reads (readEntity src first) ts d u rest d') : Entry src d d' := by
  have behind : Source src ts := source.suffix (List.suffix_cons first ts)
  unfold readEntity at whole
  split at whole
  · exact (filename_read behind whole).1
  · exact (target_read behind whole).1
  · exact (declaration_read source whole).1
  · exact (definition_read behind whole).1
  · rename_i token
    obtain ⟨line, _, _, taking, spans⟩ := reads_bind.mp whole
    obtain ⟨rfl, rfl, inside⟩ := restOfLine_read taking
    obtain ⟨_, _, _, spanning, last⟩ := reads_bind.mp spans
    obtain ⟨rfl, rfl, rfl⟩ := spanning.spanned
    obtain ⟨-, rfl⟩ := reads_update.mp last
    exact .group _ (token ▸ keptLine_of_read source inside)
  · exact absurd whole reads_refuseAt
  · rename_i name token
    exact (global_read source token whole).1
  · rename_i token
    obtain ⟨line, _, _, taking, spans⟩ := reads_bind.mp whole
    obtain ⟨rfl, rfl, inside⟩ := restOfLine_read taking
    obtain ⟨_, _, _, spanning, last⟩ := reads_bind.mp spans
    obtain ⟨rfl, rfl, rfl⟩ := spanning.spanned
    obtain ⟨-, rfl⟩ := reads_update.mp last
    exact .comdat _ (token ▸ keptLine_of_read source inside)
  · obtain ⟨text, _, _, reading, last⟩ := reads_bind.mp whole
    obtain ⟨rfl, cut⟩ := node_read behind reading
    obtain ⟨-, rfl⟩ := reads_update.mp last
    exact .metadata _ _ cut
  · rename_i name token
    obtain ⟨text, _, _, reading, last⟩ := reads_bind.mp whole
    obtain ⟨rfl, cut⟩ := node_read behind reading
    obtain ⟨-, rfl⟩ := reads_update.mp last
    have lettered := source.lettered first List.mem_cons_self
    rw [token] at lettered
    exact .named _ lettered cut
  · exact absurd whole reads_refuseAt

end

end BlockTally.Listing
