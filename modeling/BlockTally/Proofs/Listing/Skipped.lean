import BlockTally.Proofs.Listing.Safe
import BlockTally.Proofs.Listing.Turns

/-! What an instruction takes without looking at it: groups in parentheses, and nodes written in place.
All other tokens that it takes are neither labels nor closing braces, so that the lines of a body are
told apart by its tokens. The groups that are passed over are told by the steps that come to them, each
of which has been read; what a failing step would have read behind is not asked. Main statement:
`tidy_readInstruction`. -/
namespace BlockTally.Listing
open Read

def pickAttribute (_ : Unit) (t : Lexeme) (_ : List Lexeme) : Option (Option String) :=
  match t.token with
  | .attrRef => some none
  | .word text =>
    if (Ty.ofKeyword? text).isNone && !isConstantWord text then some (some text) else none
  | _ => none

/-- The number that may stand behind an attribute. -/
def skipNumber (text : String) : Read σ Unit := do
  if text = "align" then
    let _ ← accept fun | .int _ => some () | _ => none

/-- What may stand behind an attribute. -/
def readAttribute (attr : Option String) (_ : Unit) : Read σ Unit :=
  match attr with
  | none => return ()
  | some text => do
    if text = "align" then
      let _ ← accept fun | .int _ => some () | _ => none
    optionalGroup

theorem skipAttributes_eq :
    (skipAttributes : Read σ Unit) = whileNext pickAttribute readAttribute () := rfl

private theorem readAttribute_some (text : String) :
    (readAttribute (some text) () : Read σ Unit) = (do
      skipNumber text
      optionalGroup) := by
  simp only [readAttribute, skipNumber]
  split <;> simp only [bind_assoc, pure_bind]

/-- The parameter types of a callee, with the star that may stand behind them. -/
def skipTypes : Read σ Unit := do
  if (← peekToken) = some (.punct .lparen) then
    group .lparen .rparen
    let _ ← eat (.punct .star)

def readCallee (m : Module) : Read Scope Operand := do
  match ← peekToken with
  | some (.localName _) | some (.globalName _) => readOperand m.symbol? .ptr
  | _ => unexpected .callee

private theorem readSite_callee (m : Module) (ret : Ty) : readSite m ret = (do
    let callee ← readCallee m
    expect (.punct .lparen)
    let args ← readArgs m.symbol?
    whileNext (fun _ t _ => if t.token = .attrRef then some () else none) (fun _ _ => return ()) ()
    return { ret, callee, args }) := by
  rw [readCallee, bind_assoc]
  refine bind_congr fun next => ?_
  cases next with
  | none => rfl
  | some token => cases token <;> rfl

private theorem readCallSite_types (m : Module) : readCallSite m.symbol? = (do
    skipAttributes
    let ret ← readTy
    skipTypes
    readSite m ret) := by
  rw [readCallSite_eq]
  simp only [skipTypes, bind_assoc]
  refine bind_congr fun _ => bind_congr fun ret => bind_congr fun next => ?_
  split <;> simp only [bind_assoc, pure_bind]

/-- The opcode, where the word that was read may stand before it. -/
def readVerb (text : String) : Read σ String :=
  if ["tail", "musttail", "notail"].contains text then word (.token (.word "call")) else pure text

private theorem readInstruction_verb (m : Module) (first : Lexeme) :
    readInstruction m.symbol? first = (do
    let opened ← readOpcode first
    let opcode ← readVerb opened.2
    let op ← readOperation m.symbol? opcode
    let trailer ← readTrailer
    readResult first.start opcode op { op := op.aligned trailer.align, dbg := trailer.dbg }
      opened.1) := by
  rw [readInstruction_eq]
  refine bind_congr fun (result, text) => ?_
  dsimp only [readVerb]
  split <;> rfl

/-! The groups that are passed over. Each relation says that from some tokens and a state the reader
comes to the group with which the last list begins, and how. -/

def OpensGroup (g : List Lexeme) : Prop := g.head?.map Lexeme.token = some (.punct .lparen)

section
variable (m : Module)

/-- The argument of an attribute. -/
def PassesAttributes (ts : List Lexeme) (s : Scope) (g : List Lexeme) : Prop :=
  ∃ t left now text after, SomeRounds pickAttribute readAttribute () ts s () (t :: left) now ∧
    pickAttribute () t left = some (some text) ∧ Reads (skipNumber text) left now () g after ∧
    OpensGroup g

/-- In the attributes of an argument. -/
def PassesArg (ts : List Lexeme) (s : Scope) (g : List Lexeme) : Prop :=
  ∃ ty left now, Reads readTy ts s ty left now ∧ PassesAttributes left now g

/-- In the first argument, or in one behind a comma. -/
inductive PassesArgs : List Lexeme → Scope → List Lexeme → Prop
  | first {ts g : List Lexeme} {s : Scope} (passes : PassesArg ts s g) : PassesArgs ts s g
  | later {ts rest left g : List Lexeme} {s between now : Scope} {arg : Ty × Operand}
      {args : List (Ty × Operand)} {t : Lexeme} (first : Reads (readArg m.symbol?) ts s arg rest between)
      (rounds : SomeRounds (fun _ t _ => if t.token = .punct .comma then some () else none)
        (fun _ args => return args ++ [← readArg m.symbol?]) [arg] rest between args (t :: left) now)
      (comma : t.token = .punct .comma) (passes : PassesArg left now g) : PassesArgs ts s g

/-- In the attributes before a return type, as the parameter types behind it, or in the arguments. -/
inductive PassesCallSite : List Lexeme → Scope → List Lexeme → Prop
  | attributes {ts g : List Lexeme} {s : Scope} (passes : PassesAttributes ts s g) :
      PassesCallSite ts s g
  | types {ts front g : List Lexeme} {s now now' : Scope} {ret : Ty}
      (attributes : Reads skipAttributes ts s () front now) (type : Reads readTy front now ret g now')
      (opens : OpensGroup g) : PassesCallSite ts s g
  | args {ts front between behind paren inside g : List Lexeme} {s s₁ s₂ s₃ s₄ s₅ : Scope} {ret : Ty}
      {callee : Operand} (attributes : Reads skipAttributes ts s () front s₁)
      (type : Reads readTy front s₁ ret between s₂) (types : Reads skipTypes between s₂ () behind s₃)
      (called : Reads (readCallee m) behind s₃ callee paren s₄)
      (opens : Reads (expect (.punct .lparen)) paren s₄ () inside s₅)
      (passes : PassesArgs m inside s₅ g) : PassesCallSite ts s g

/-- In a call, of which the first token is taken. -/
def PassesInstruction (first : Lexeme) (ts : List Lexeme) (s : Scope) (g : List Lexeme) : Prop :=
  ∃ result text behind now opcode left now', Reads (readOpcode first) ts s (result, text) behind now ∧
    Reads (readVerb text) behind now opcode left now' ∧ (opcode = "call" ∨ opcode = "invoke") ∧
    PassesCallSite m left now' g

end

/-- A token that begins no line of a body and does not end it. -/
def isInline : Token → Bool
  | .label _ | .punct .rbrace => false
  | _ => true

/-- The group that the tokens begin with holds no label and no closing brace. -/
def Plain (g : List Lexeme) : Prop :=
  ∀ t inside after, g = t :: inside ++ after →
    closes .lparen .rparen 1 (inside.map (·.token)) = true → ∀ u ∈ inside, isInline u.token = true

/-- A node is written in place, and before it there are only inner tokens. -/
def OpensNode (ts : List Lexeme) : Prop :=
  ∃ before bang brace after, ts = before ++ bang :: brace :: after ∧ bang.token = .punct .bang ∧
    brace.token = .punct .lbrace ∧ ∀ t ∈ before, isInline t.token = true

def Tidied (ts : List Lexeme) : Prop := (∀ t ∈ ts, isInline t.token = true) ∨ OpensNode ts

theorem Tidied.nil : Tidied [] := .inl (List.forall_mem_nil _)

theorem Tidied.single {t : Lexeme} (inner : isInline t.token = true) : Tidied [t] :=
  .inl (List.forall_mem_singleton.mpr inner)

theorem Tidied.append {ts us : List Lexeme} (first : Tidied ts) (second : Tidied us) :
    Tidied (ts ++ us) := by
  rcases first with inner | ⟨before, bang, brace, after, rfl, known⟩
  · rcases second with also | ⟨before, bang, brace, after, rfl, node, opens, clear⟩
    · exact .inl (List.forall_mem_append.mpr ⟨inner, also⟩)
    · exact .inr ⟨ts ++ before, bang, brace, after, by simp, node, opens,
        List.forall_mem_append.mpr ⟨inner, clear⟩⟩
  · exact .inr ⟨before, bang, brace, after ++ us, by simp, known⟩

section
variable {σ α β : Type}

/-- A group that is passed over hides tokens. -/
def Hides (passes : List Lexeme → σ → List Lexeme → Prop) (ts : List Lexeme) (s : σ) : Prop :=
  ∃ g, passes ts s g ∧ ¬ Plain g

theorem Hides.imp {passes passes' : List Lexeme → σ → List Lexeme → Prop} {ts us : List Lexeme}
    {s s' : σ} (hides : Hides passes ts s) (also : ∀ g, passes ts s g → passes' us s' g) :
    Hides passes' us s' := by
  obtain ⟨g, here, hidden⟩ := hides
  exact ⟨g, also g here, hidden⟩

/-- What a run takes is tidy, unless `hidden`. -/
def TidyAt (hidden : Prop) (m : Read σ α) (ts : List Lexeme) (s : σ) : Prop :=
  ∀ a took rest s', ts = took ++ rest → Reads m ts s a rest s' → Tidied took ∨ hidden

class Tidy (m : Read σ α) : Prop where
  runs : ∀ ts s, TidyAt False m ts s

variable {hidden hidden' : Prop}

theorem TidyAt.imp {m : Read σ α} {ts : List Lexeme} {s : σ} (tidy : TidyAt hidden m ts s)
    (also : hidden → hidden') : TidyAt hidden' m ts s :=
  fun a took rest s' whole read => (tidy a took rest s' whole read).imp_right also

theorem Tidy.at {m : Read σ α} [tidy : Tidy m] {ts : List Lexeme} {s : σ} : TidyAt hidden m ts s :=
  (tidy.runs ts s).imp False.elim

theorem TidyAt.bind {m : Read σ α} {f : α → Read σ β} {ts : List Lexeme} {s : σ}
    (first : TidyAt hidden m ts s)
    (second : ∀ a rest s', Reads m ts s a rest s' → TidyAt hidden (f a) rest s') :
    TidyAt hidden (m >>= f) ts s := by
  intro b took rest s'' whole read
  obtain ⟨a, between, s', here, there⟩ := reads_bind.mp read
  obtain ⟨front, rfl⟩ := here.suffix
  obtain ⟨back, rfl⟩ := there.suffix
  obtain rfl : front ++ back = took := List.append_cancel_right (by rw [← whole, List.append_assoc])
  rcases first a front _ s' rfl here with clear | hides
  · exact (second a _ s' here b back rest s'' rfl there).imp_left clear.append
  · exact .inr hides

/-- A step that takes nothing. -/
theorem TidyAt.still {m : Read σ α} {ts : List Lexeme} {s : σ}
    (still : ∀ a rest s', Reads m ts s a rest s' → rest = ts) : TidyAt hidden m ts s := by
  intro a took rest s' whole read
  obtain rfl := still a rest s' read
  obtain rfl : took = [] := List.self_eq_append_left.mp whole
  exact .inl .nil

/-- A step that takes an inner token at most. -/
theorem TidyAt.one {m : Read σ α} {ts : List Lexeme} {s : σ}
    (one : ∀ a rest s', Reads m ts s a rest s' → rest = ts ∨
      ∃ t, ts = t :: rest ∧ isInline t.token = true) : TidyAt hidden m ts s := by
  intro a took rest s' whole read
  rcases one a rest s' read with rfl | ⟨t, rfl, inner⟩
  · obtain rfl : took = [] := List.self_eq_append_left.mp whole
    exact .inl .nil
  · obtain rfl : [t] = took := List.append_cancel_right (whole : [t] ++ rest = _)
    exact .inl (.single inner)

theorem TidyAt.absurd {m : Read σ α} {ts : List Lexeme} {s : σ}
    (never : ∀ a rest s', ¬ Reads m ts s a rest s') : TidyAt hidden m ts s :=
  fun a _ rest s' _ read => (never a rest s' read).elim

instance {m : Read σ α} {f : α → Read σ β} [first : Tidy m] [second : ∀ a, Tidy (f a)] :
    Tidy (m >>= f) :=
  ⟨fun ts s => (first.runs ts s).bind fun a rest s' _ => (second a).runs rest s'⟩

instance {p : Prop} [Decidable p] {m m' : Read σ α} [Tidy m] [Tidy m'] :
    Tidy (if p then m else m') := by
  split <;> infer_instance

instance (a : α) : Tidy (pure a : Read σ α) :=
  ⟨fun _ _ => .still fun _ _ _ read => (reads_pure.mp read).2.1⟩

instance : Tidy (state : Read σ σ) := ⟨fun _ _ => .still fun _ _ _ read => (reads_state.mp read).2.1⟩

instance (f : σ → σ) : Tidy (update f) := ⟨fun _ _ => .still fun _ _ _ read => (reads_update.mp read).1⟩

instance : Tidy (outOfRange : Read σ α) := ⟨fun _ _ => .absurd fun _ _ _ => reads_outOfRange⟩

instance (start : Option Nat) (cause : Cause) : Tidy (refuseAt start cause : Read σ α) :=
  ⟨fun _ _ => .absurd fun _ _ _ => reads_refuseAt⟩

instance (cause : Cause) : Tidy (refuse cause : Read σ α) :=
  ⟨fun _ _ => .absurd fun _ _ _ => reads_refuse⟩

instance (what : Wanted) : Tidy (unexpected what : Read σ α) :=
  ⟨fun _ _ => .absurd fun _ _ _ => reads_unexpected⟩

instance : Tidy (peekToken : Read σ _) :=
  ⟨fun _ _ => .still fun _ _ _ read => (reads_peekToken.mp read).2.1⟩

instance : Tidy (place : Read σ _) := ⟨fun _ _ => .still fun _ _ _ read => (reads_place.mp read).2.1⟩

theorem TidyAt.skip {t : Lexeme} {ts : List Lexeme} {s : σ} (inner : isInline t.token = true) :
    TidyAt hidden Read.skip (t :: ts) s :=
  .one fun _ _ _ read => .inr ⟨t, by rw [(reads_skip.mp read).1]; rfl, inner⟩

/-- A step that is decided by the next token. -/
theorem TidyAt.peeked {f : Option Token → Read σ β} {ts : List Lexeme} {s : σ}
    (tidy : TidyAt hidden (f (ts.head?.map Lexeme.token)) ts s) :
    TidyAt hidden (peekToken >>= f) ts s := by
  refine .bind (.still fun _ _ _ read => (reads_peekToken.mp read).2.1) fun next rest s' read => ?_
  obtain ⟨rfl, rfl, rfl⟩ := reads_peekToken.mp read
  exact tidy

theorem TidyAt.skipped {f : Unit → Read σ β} {token : Token} {ts : List Lexeme} {s : σ}
    (next : ts.head?.map Lexeme.token = some token) (inner : isInline token = true)
    (tidy : Tidy (f ())) : TidyAt hidden (Read.skip >>= f) ts s := by
  obtain ⟨t, first, rfl⟩ := Option.map_eq_some_iff.mp next
  obtain ⟨more, rfl⟩ := List.head?_eq_some_iff.mp first
  exact .bind (.skip inner) fun _ _ _ _ => Tidy.at

/-- Only inner tokens are known to `f`. -/
def KnowsInner (f : Token → Option α) : Prop := ∀ t, (f t).isSome → isInline t = true

private theorem tidy_accept {f : Token → Option α} (inner : KnowsInner f) :
    Tidy (accept f : Read σ (Option α)) := by
  refine ⟨fun ts s => .one fun found rest s' read => ?_⟩
  cases found with
  | none => exact .inl (reads_accept.mp read).2.1
  | some a =>
    obtain ⟨t, rfl, known, -⟩ := reads_accepted read
    exact .inr ⟨t, rfl, inner _ (Option.isSome_of_eq_some known)⟩

private theorem tidy_demand {what : Wanted} {f : Token → Option α} (inner : KnowsInner f) :
    Tidy (demand what f : Read σ α) := by
  refine ⟨fun ts s => .one fun a rest s' read => ?_⟩
  obtain ⟨t, rfl, known, -⟩ := reads_demand.mp read
  exact .inr ⟨t, rfl, inner _ (Option.isSome_of_eq_some known)⟩

private theorem tidy_expect {t : Token} (inner : isInline t = true) :
    Tidy (expect t : Read σ Unit) := by
  refine tidy_demand fun u known => ?_
  split at known
  · rename_i same
    exact same ▸ inner
  · cases known

private theorem tidy_eat {t : Token} (inner : isInline t = true) : Tidy (eat t : Read σ Bool) := by
  have accepted : Tidy (accept fun found => if found = t then some () else none : Read σ _) := by
    refine tidy_accept fun u known => ?_
    split at known
    · rename_i same
      exact same ▸ inner
    · cases known
  unfold eat
  infer_instance

instance (what : Wanted) : Tidy (word what : Read σ String) :=
  tidy_demand fun t known => by cases t <;> first | rfl | cases known

/-- A loop takes the tokens that it picks and those of its rounds. -/
theorem TidyAt.loop {pick : α → Lexeme → List Lexeme → Option β} {body : β → α → Read σ α} {a : α}
    {ts : List Lexeme} {s : σ}
    (inner : ∀ a t ts b, pick a t ts = some b → isInline t.token = true)
    (tidy : ∀ c t left b now, SomeRounds pick body a ts s c (t :: left) now →
      pick c t left = some b → TidyAt hidden (body b c) left now) :
    TidyAt hidden (whileNext pick body a) ts s := by
  intro c took rest s' whole read
  suffices runs : ∀ {d us now}, Rounds pick body d us now c rest s' →
      SomeRounds pick body a ts s d us now → ∀ took, us = took ++ rest → Tidied took ∨ hidden from
    runs (reads_whileNext.mp read) .none took whole
  clear whole read took
  intro d us now rounds
  induction rounds with
  | finish =>
    intro _ took whole
    obtain rfl : took = [] := List.self_eq_append_left.mp whole
    exact .inl .nil
  | @round d e c b t us between rest now now' s' picked once more ih =>
    intro before took whole
    obtain ⟨front, rfl⟩ := once.suffix
    obtain ⟨back, rfl⟩ := (reads_whileNext.mpr more).suffix
    obtain rfl : t :: front ++ back = took := List.append_cancel_right (by rw [← whole]; simp)
    rcases tidy d t _ b now before picked e front _ now' rfl once with clear | hides
    · exact (ih (before.snoc picked once) back rfl).imp_left
        ((Tidied.single (inner _ _ _ _ picked)).append clear).append
    · exact .inr hides

theorem Tidy.loop {pick : α → Lexeme → List Lexeme → Option β} {body : β → α → Read σ α} {a : α}
    (inner : ∀ a t ts b, pick a t ts = some b → isInline t.token = true)
    (tidy : ∀ a t ts b s, pick a t ts = some b → TidyAt False (body b a) ts s) :
    Tidy (whileNext pick body a) :=
  ⟨fun _ _ => .loop inner fun c t left b now _ picked => tidy c t left b now picked⟩

/-! The readers. -/

private theorem tidy_group (ts : List Lexeme) (s : σ) :
    TidyAt (¬ Plain ts) (group .lparen .rparen : Read σ Unit) ts s := by
  intro u took rest s' whole read
  obtain ⟨t, inside, rfl, mark, ends, rfl⟩ := reads_group.mp read
  obtain ⟨front, rfl, closed⟩ := afterGroup_eq_some.mp ends
  obtain rfl : t :: front = took := List.append_cancel_right whole
  by_cases plain : Plain (t :: (front ++ rest))
  · refine .inl ((Tidied.single (by rw [mark]; rfl)).append (.inl ?_))
    exact plain t front rest rfl closed
  · exact .inr plain

private theorem tidy_optionalGroup (ts : List Lexeme) (s : σ) :
    TidyAt (OpensGroup ts ∧ ¬ Plain ts) (optionalGroup : Read σ Unit) ts s := by
  refine .peeked ?_
  split
  · rename_i opens
    exact (tidy_group ts s).imp fun hidden => ⟨opens, hidden⟩
  · exact Tidy.at

/-- A loop that picks one token. -/
theorem inner_picked {picks : Option β} {t : Lexeme} {token : Token} {b : β}
    (inner : isInline token = true) (other : t.token ≠ token → picks = none)
    (picked : picks = some b) : isInline t.token = true := by
  by_cases same : t.token = token
  · exact same ▸ inner
  · rw [other same] at picked
    cases picked

instance : Tidy (readTy : Read σ Ty) := by
  refine ⟨fun ts s => .bind (Tidy.runs ts s) fun start rest s' read => ?_⟩
  clear read
  refine .peeked ?_
  split
  · rename_i text next
    split
    · exact Tidy.runs _ _
    · refine .skipped next rfl (.loop (fun _ t _ _ => ?_) fun _ _ _ _ _ _ => Tidy.runs _ _)
      exact inner_picked (rfl : isInline (.punct .star) = true) fun other => if_neg other
  all_goals exact Tidy.runs _ _

private theorem inner_constant {ty : Ty} {t : Token} {c : Except Cause Constant}
    (known : constantOf? ty t = some c) : isInline t = true := by
  cases t <;> first | rfl | cases known

instance (ty : Ty) : Tidy (readConstant? ty : Read σ (Option Constant)) := by
  refine ⟨fun ts s => .peeked ?_⟩
  split
  · exact Tidy.runs _ _
  · rename_i c here
    obtain ⟨token, next, known⟩ := Option.bind_eq_some_iff.mp here
    exact .skipped next (inner_constant known) inferInstance
  · exact Tidy.runs _ _

instance : Tidy (readWord32 : Read σ UInt32) := by
  have number : Tidy (demand .integer fun | .int value => some value | _ => none : Read σ Int64) :=
    tidy_demand fun t known => by cases t <;> first | rfl | cases known
  refine ⟨fun ts s => .bind (Tidy.runs ts s) fun start rest s' _ => .bind (number.runs _ _) ?_⟩
  intro value rest s' _
  split <;> exact Tidy.runs _ _

instance (text : String) : Tidy (skipNumber text : Read σ Unit) := by
  have number : Tidy (accept fun | .int _ => some () | _ => none : Read σ (Option Unit)) :=
    tidy_accept fun t known => by cases t <;> first | rfl | cases known
  unfold skipNumber
  infer_instance

private theorem tidy_skipAttributes (ts : List Lexeme) (s : Scope) :
    TidyAt (Hides PassesAttributes ts s) skipAttributes ts s := by
  rw [skipAttributes_eq]
  refine .loop ?_ ?_
  · intro _ t _ _ picked
    cases token : t.token <;> first | rfl | simp [pickAttribute, token] at picked
  · intro _ t left attr now rounds picked
    cases attr with
    | none => exact Tidy.at (m := (pure () : Read Scope Unit))
    | some text =>
      rw [readAttribute_some]
      refine Tidy.at.bind fun _ g after number => (tidy_optionalGroup g after).imp ?_
      rintro ⟨opens, hidden⟩
      exact ⟨g, ⟨t, left, now, text, after, rounds, picked, number, opens⟩, hidden⟩

section
variable (m : Module) (ty : Ty)

instance (start : Nat) (name : String) : Tidy (addLocal start name ty) := by
  refine ⟨fun ts s => .bind (Tidy.runs ts s) fun scope rest s' _ => ?_⟩
  split <;> exact Tidy.runs _ _

instance (start : Nat) (name : String) : Tidy (defineLocal start name ty) := by
  refine ⟨fun ts s => .bind (Tidy.runs ts s) fun scope rest s' _ => ?_⟩
  split
  · exact Tidy.runs _ _
  · split
    · exact Tidy.runs _ _
    · split <;> exact Tidy.runs _ _

instance : Tidy (readOperand m.symbol? ty) := by
  refine ⟨fun ts s => .bind (.still fun _ _ _ read => (reads_peek.mp read).2.1) ?_⟩
  intro next rest s' read
  obtain ⟨rfl, rfl, rfl⟩ := reads_peek.mp read
  split
  · rename_i name start stop next
    have token : rest.head?.map Lexeme.token = some (.localName name) := by rw [next]; rfl
    refine .skipped token rfl ⟨fun ts s => ?_⟩
    refine .bind (Tidy.runs _ _) fun scope rest s' _ => ?_
    split <;> exact Tidy.runs _ _
  · rename_i name start stop next
    have token : rest.head?.map Lexeme.token = some (.globalName name) := by rw [next]; rfl
    refine .skipped token rfl ⟨fun ts s => ?_⟩
    split <;> exact Tidy.runs _ _
  · refine .bind (Tidy.runs _ _) fun c rest s' _ => ?_
    split <;> exact Tidy.runs _ _

instance : Tidy readBlock := by
  have name : Tidy (demand .localName fun | .localName name => some name | _ => none :
      Read Scope String) := tidy_demand fun t known => by cases t <;> first | rfl | cases known
  refine ⟨fun ts s => .bind (Tidy.runs _ _) fun start rest s' _ => .bind (name.runs _ _) ?_⟩
  refine fun name rest s' _ => .bind (Tidy.runs _ _) fun scope rest s' _ => ?_
  split <;> exact Tidy.runs _ _

instance : Tidy (expectComma : Read σ Unit) := tidy_expect rfl

instance (text : String) : Tidy (expectWord text : Read σ Unit) := tidy_expect rfl

instance (text : String) : Tidy (eat (.word text) : Read σ Bool) := tidy_eat rfl

instance : Tidy (eat (.punct .rparen) : Read σ Bool) := tidy_eat rfl

instance : Tidy (eat (.punct .star) : Read σ Bool) := tidy_eat rfl

instance : Tidy (expect (.punct .lparen) : Read σ Unit) := tidy_expect rfl

instance : Tidy (expect (.punct .lbracket) : Read σ Unit) := tidy_expect rfl

instance : Tidy (expect (.punct .rbracket) : Read σ Unit) := tidy_expect rfl

instance : Tidy readLabel := by unfold readLabel; infer_instance

instance : Tidy (readPointer m.symbol?) := by unfold readPointer; infer_instance

private theorem tidy_readArg (ts : List Lexeme) (s : Scope) :
    TidyAt (Hides PassesArg ts s) (readArg m.symbol?) ts s := by
  refine Tidy.at.bind fun ty left now type => .bind ?_ fun _ _ _ _ => Tidy.at
  exact (tidy_skipAttributes left now).imp fun hides =>
    hides.imp fun g passes => ⟨ty, left, now, type, passes⟩

private theorem tidy_readArgs (ts : List Lexeme) (s : Scope) :
    TidyAt (Hides (PassesArgs m) ts s) (readArgs m.symbol?) ts s := by
  refine Tidy.at.bind fun empty rest now eaten => ?_
  cases empty with
  | true => exact Tidy.at (m := pure [])
  | false =>
    obtain ⟨-, rfl, rfl⟩ := reads_eat.mp eaten
    have first : TidyAt (Hides (PassesArgs m) rest now) (readArg m.symbol?) rest now :=
      (tidy_readArg m rest now).imp fun hides => hides.imp fun _ => .first
    refine first.bind fun arg between after read => .bind (.loop ?_ ?_) fun _ _ _ _ => Tidy.at
    · exact fun _ t _ _ =>
        inner_picked (rfl : isInline (.punct .comma) = true) fun other => if_neg other
    · intro args t left _ later rounds picked
      have comma : t.token = .punct .comma := by
        by_contra other
        rw [if_neg other] at picked
        cases picked
      refine .bind ((tidy_readArg m left later).imp fun hides => ?_) fun _ _ _ _ => Tidy.at
      exact hides.imp fun _ => PassesArgs.later read rounds comma

instance : Tidy (readCallee m) := by
  refine ⟨fun ts s => .bind Tidy.at fun next rest s' _ => ?_⟩
  split <;> exact Tidy.at

private theorem tidy_skipTypes (ts : List Lexeme) (s : Scope) :
    TidyAt (OpensGroup ts ∧ ¬ Plain ts) skipTypes ts s := by
  refine .peeked ?_
  split
  · rename_i opens
    exact ((tidy_group ts s).imp fun hidden => ⟨opens, hidden⟩).bind fun _ _ _ _ => Tidy.at
  · exact Tidy.at

private theorem tidy_readCallSite (ts : List Lexeme) (s : Scope) :
    TidyAt (Hides (PassesCallSite m) ts s) (readCallSite m.symbol?) ts s := by
  have references : Tidy (whileNext (fun _ t _ => if t.token = .attrRef then some () else none)
      (fun _ _ => return ()) () : Read Scope Unit) := by
    refine .loop (fun _ t _ _ => ?_) fun _ _ _ _ _ _ => Tidy.at
    exact inner_picked (rfl : isInline .attrRef = true) fun other => if_neg other
  have attributes : TidyAt (Hides (PassesCallSite m) ts s) skipAttributes ts s :=
    (tidy_skipAttributes ts s).imp fun hides => hides.imp fun _ => .attributes
  rw [readCallSite_types]
  refine attributes.bind fun _ front s₁ skipped => Tidy.at.bind fun ret between s₂ type => ?_
  refine ((tidy_skipTypes between s₂).imp fun ⟨opens, hidden⟩ =>
    ⟨between, .types skipped type opens, hidden⟩).bind fun _ behind s₃ types => ?_
  rw [readSite_callee]
  refine Tidy.at.bind fun callee paren s₄ called => Tidy.at.bind fun _ inside s₅ opens => ?_
  exact ((tidy_readArgs m inside s₅).imp fun hides => hides.imp fun _ =>
    .args skipped type types called opens).bind fun _ _ _ _ => Tidy.at

instance : Tidy (readEdge m.symbol? ty) := by unfold readEdge; infer_instance

instance : Tidy (readFlags : Read σ (Bool × Bool)) := by
  refine .loop ?_ fun _ _ _ _ _ _ => Tidy.runs _ _
  intro _ t _ _ picked
  cases token : t.token <;> first | rfl | simp [token] at picked

instance (op : Arith) : Tidy (readArith m.symbol? op) := by
  unfold readArith; infer_instance

instance (op : Conversion) : Tidy (readConversion m.symbol? op) := by unfold readConversion; infer_instance

instance : Tidy (readComparison m.symbol?) := by
  refine ⟨fun ts s => .bind (Tidy.runs ts s) fun text rest s' _ => ?_⟩
  split <;> exact Tidy.runs _ _

instance : Tidy (readLoad m.symbol?) := by unfold readLoad; infer_instance

instance : Tidy (readStore m.symbol?) := by unfold readStore; infer_instance

instance : Tidy (readPhi m.symbol?) := by
  have loop : ∀ ty edges, Tidy (whileNext (fun _ t ts =>
      if t.token = .punct .comma && ts.head?.map Lexeme.token = some (.punct .lbracket) then some ()
      else none) (fun _ edges => return edges ++ [← readEdge m.symbol? ty]) edges) := fun ty edges =>
    .loop (fun _ t _ _ => inner_picked (rfl : isInline (.punct .comma) = true)
        fun other => by simp [other])
      fun _ _ _ _ _ _ => Tidy.runs _ _
  unfold readPhi
  infer_instance

instance : Tidy (readBranch m.symbol?) := by unfold readBranch; infer_instance

instance : Tidy (readReturn m.symbol?) := by unfold readReturn; infer_instance

private theorem tidy_readOperation (opcode : String) (ts : List Lexeme) (s : Scope) :
    TidyAt ((opcode = "call" ∨ opcode = "invoke") ∧ Hides (PassesCallSite m) ts s)
      (readOperation m.symbol? opcode) ts s := by
  unfold readOperation
  split
  · exact Tidy.at
  · exact Tidy.at
  · split
    case h_6 =>
      exact ((tidy_readCallSite m ts s).imp fun hides => ⟨.inl rfl, hides⟩).bind
        fun _ _ _ _ => Tidy.at
    case h_7 =>
      exact ((tidy_readCallSite m ts s).imp fun hides => ⟨.inr rfl, hides⟩).bind
        fun _ _ _ _ => Tidy.at
    all_goals exact Tidy.at

/-- A node that is written in place has braces. -/
instance : Tidy (readAttachment : Read σ (Option UInt32)) := by
  refine ⟨fun ts s a took rest s' whole read => ?_⟩
  simp only [readAttachment, reads_bind, reads_peekToken, reads_skip] at read
  obtain ⟨next, _, _, ⟨here, rfl, rfl⟩, _, _, _, ⟨rfl, rfl⟩, choice⟩ := read
  split at choice
  · rename_i node known
    obtain ⟨-, rfl, -⟩ := reads_pure.mp choice
    obtain ⟨token, there, number⟩ := Option.bind_eq_some_iff.mp known
    obtain ⟨t, first, rfl⟩ := Option.map_eq_some_iff.mp (here.symm.trans there)
    obtain ⟨more, rfl⟩ := List.head?_eq_some_iff.mp first
    obtain rfl : [t] = took := List.append_cancel_right (whole : [t] ++ more = _)
    refine .inl (.single ?_)
    rw [Token.node?_eq_some.mp number]
    rfl
  · split at choice
    · rename_i bang
      obtain ⟨t, first, mark⟩ := Option.map_eq_some_iff.mp (here.symm.trans bang)
      obtain ⟨more, rfl⟩ := List.head?_eq_some_iff.mp first
      obtain ⟨_, behind, _, peeked, node⟩ := reads_bind.mp choice
      obtain ⟨-, same, -⟩ := reads_peekToken.mp peeked
      obtain rfl : more = behind := same.symm
      split at node
      · obtain ⟨_, _, _, braces, done⟩ := reads_bind.mp node
        obtain ⟨-, rfl, -⟩ := reads_pure.mp done
        obtain ⟨brace, inside, opened, opens, ends, -⟩ := reads_group.mp braces
        obtain ⟨front, rfl, -⟩ := afterGroup_eq_some.mp ends
        obtain rfl : more = brace :: (front ++ rest) := opened
        obtain rfl : t :: brace :: front = took := List.append_cancel_right whole
        exact .inl (.inr ⟨[], t, brace, front, rfl, mark, opens, List.forall_mem_nil _⟩)
      · exact absurd node reads_refuse
    · exact absurd choice reads_refuse

instance : Tidy (readTrailer : Read σ Trailer) := by
  refine .loop (fun _ t ts b picked => ?_) (fun _ t ts b s picked => ?_)
  · split at picked
    · cases picked
    · rename_i comma
      rw [show t.token = .punct .comma by simpa using comma]
      rfl
  · have behind : ∃ token, ts.head?.map Lexeme.token = some token ∧ isInline token = true := by
      split at picked
      · cases picked
      · split at picked
        · rename_i next
          exact ⟨_, next, rfl⟩
        · rename_i next
          exact ⟨_, next, rfl⟩
        · cases picked
    obtain ⟨token, next, inner⟩ := behind
    refine .skipped next inner ?_
    cases b with
    | none => exact inferInstanceAs (Tidy (readWord32 >>= fun n => pure _))
    | some kind =>
      refine ⟨fun ts s => .bind (Tidy.runs ts s) fun node rest s' _ => ?_⟩
      split <;> exact Tidy.runs _ _

instance (first : Lexeme) : Tidy (readOpcode first : Read σ (Option String × String)) := by
  refine ⟨fun ts s => .peeked ?_⟩
  split
  · rename_i next
    exact .skipped next rfl inferInstance
  · exact Tidy.runs _ _
  · exact Tidy.runs _ _

instance (start : Nat) (opcode : String) (op : Operation) (inst : Instruction)
    (result : Option String) : Tidy (readResult start opcode op inst result) := by
  cases result <;> unfold readResult <;> infer_instance

instance (text : String) : Tidy (readVerb text : Read σ String) := by
  unfold readVerb
  infer_instance

/-- The first token of an instruction is taken before. -/
theorem tidy_readInstruction (first : Lexeme) (ts : List Lexeme) (s : Scope) :
    TidyAt (Hides (PassesInstruction m first) ts s) (readInstruction m.symbol? first) ts s := by
  rw [readInstruction_verb]
  refine Tidy.at.bind fun (result, text) behind now started => ?_
  refine Tidy.at.bind fun opcode left now' named => ?_
  refine ((tidy_readOperation m opcode left now').imp fun ⟨call, hides⟩ => ?_).bind
    fun _ _ _ _ => Tidy.at
  exact hides.imp fun _ passes => ⟨result, text, behind, now, opcode, left, now', started, named, call,
    passes⟩

end

end

end BlockTally.Listing
