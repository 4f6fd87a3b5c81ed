import Mathlib.Data.Nat.Digits.Defs
import BlockTally.Proofs.Listing.Breaks
import BlockTally.Proofs.Listing.Restored

/-! Lines of nodes. The text of a node goes up to the end of its line, so a quotation that is open there
takes with it what follows. Then less is read into the nodes than there was on the lines. Main statement:
`lines_lexable`. -/
namespace BlockTally.Listing
open Text Read

/-! Characters that are not blank. -/

def solid (cs : List Char) : Nat := cs.countP (!isBlank ·)

@[simp] theorem solid_append (a b : List Char) : solid (a ++ b) = solid a + solid b :=
  List.countP_append

private theorem solid_blank {cs : List Char} (blank : ∀ c ∈ cs, isBlank c = true) : solid cs = 0 :=
  List.countP_eq_zero.mpr fun c mem => by simp [blank c mem]

private theorem solid_pos {cs : List Char} {c : Char} (mem : c ∈ cs) (other : isBlank c = false) :
    0 < solid cs :=
  List.countP_pos_iff.mpr ⟨c, mem, by simp [other]⟩

private theorem solid_all {cs : List Char} (all : ∀ c ∈ cs, isBlank c = false) :
    solid cs = cs.length :=
  List.countP_eq_length.mpr fun c mem => by simp [all c mem]

private theorem solid_reverse (cs : List Char) : solid cs.reverse = solid cs := List.countP_reverse

private theorem solid_dropWhile (cs : List Char) : solid (cs.dropWhile isBlank) = solid cs := by
  have split := congrArg solid (List.takeWhile_append_dropWhile (p := isBlank) (l := cs))
  rw [solid_append, solid_blank fun c mem => List.mem_takeWhile_imp mem, Nat.zero_add] at split
  exact split

private theorem solid_trimmed (text : String) :
    solid (trimmed text).toList = solid text.toList := by
  rw [trimmed, String.toList_ofList, solid_reverse, solid_dropWhile, solid_reverse, solid_dropWhile]

theorem Spelling.solid_pos {text : List Char} {t : Token} (spelled : Spelling text t) :
    0 < solid text := by
  obtain ⟨c, rest, rfl, -⟩ := spelled.exists_cons
  exact Listing.solid_pos List.mem_cons_self (spelled.shape.first c rfl)

/-! What a module has in its nodes, as it is written. -/

def Node.sign : Node → String
  | .inl (name, _) => "!" ++ name
  | .inr (node, _) => "!" ++ toString node.toNat

def Node.token : Node → Token
  | .inl (name, _) => .nodeName name
  | .inr (node, _) => .nodeRef node

def Node.body : Node → String
  | .inl (_, text) => text
  | .inr (_, text) => text

/-- What is known of a node that is read. -/
def Node.Known (n : Node) : Prop :=
  NodeText n.body ∧ match n with
    | .inl (name, _) => NodeName name
    | .inr _ => True

theorem Node.text_eq (n : Node) : n.text = n.sign ++ " = " ++ n.body := by
  cases n <;> rfl

theorem Node.Known.spelled {n : Node} (known : n.Known) : Spelling n.sign.toList n.token := by
  obtain ⟨-, named⟩ := known
  rcases n with ⟨name, text⟩ | ⟨node, text⟩
  · obtain ⟨c, cs, same, other, plain⟩ := named
    have spelled := Spelling.nodeName other plain
    rw [← same, String.ofList_toList] at spelled
    rwa [sign, String.toList_append]
  · rw [sign, String.toList_append]
    exact Spelling.nodeRef (word32?_toString node)

def Node.weight (n : Node) : Nat := solid n.text.toList

def weight (m : Module) : Nat := ((nodes m).map Node.weight).sum

theorem Node.weight_eq (n : Node) :
    n.weight = solid n.sign.toList + 1 + solid n.body.toList := by
  have equals : solid " = ".toList = 1 := by decide
  rw [weight, text_eq, String.toList_append, String.toList_append, solid_append, solid_append, equals]

private theorem ofDigitChars_lt {ds : List Char} (digits : ∀ c ∈ ds, c.isDigit = true) (n : Nat) :
    Nat.ofDigitChars 10 ds n < (n + 1) * 10 ^ ds.length := by
  induction ds generalizing n with
  | nil => simp
  | cons c ds ih =>
    obtain ⟨first, others⟩ := List.forall_mem_cons.mp digits
    have below : c.toNat - '0'.toNat ≤ 9 := by
      have bounds : c.toNat ≤ '9'.toNat := by
        simp only [Char.isDigit, Bool.and_eq_true, decide_eq_true_eq] at first
        exact first.2
      have nine : '9'.toNat = '0'.toNat + 9 := rfl
      omega
    have rest := ih others (10 * n + (c.toNat - '0'.toNat))
    rw [Nat.ofDigitChars_cons, List.length_cons, Nat.pow_succ']
    calc Nat.ofDigitChars 10 ds (10 * n + (c.toNat - '0'.toNat))
        < (10 * n + (c.toNat - '0'.toNat) + 1) * 10 ^ ds.length := rest
      _ ≤ ((n + 1) * 10) * 10 ^ ds.length := Nat.mul_le_mul_right _ (by omega)
      _ = (n + 1) * (10 * 10 ^ ds.length) := Nat.mul_assoc _ _ _

private theorem length_toDigits_le {ds : List Char} {node : UInt32}
    (number : word32? ds = some node) :
    (Nat.toDigits 10 node.toNat).length ≤ ds.length := by
  obtain ⟨some, digits⟩ := digits_of_word32? number
  have value : node.toNat = Nat.ofDigitChars 10 ds 0 := by
    obtain ⟨n, read, small⟩ := Option.bind_eq_some_iff.mp number
    rw [natural?, if_neg (by simpa [some] using digits)] at read
    obtain rfl := Option.some.inj read
    unfold word32OfInt? at small
    split at small
    · next range =>
      obtain rfl := Option.some.inj small
      exact UInt32.toNat_ofNat_of_lt' range.2
    · cases small
  refine Nat.toDigits_length _ _ _ (List.length_pos_iff.mpr some) ?_
  rw [value]
  simpa using ofDigitChars_lt digits 0

theorem Spelling.of_nodeName {text : List Char} {name : String}
    (spelled : Spelling text (.nodeName name)) : text = '!' :: name.toList := by
  cases spelled with
  | nodeName _ _ => rw [String.toList_ofList]
  | word _ known => simpa using wordToken?_cases known

theorem Spelling.of_nodeRef {text : List Char} {node : UInt32} (spelled : Spelling text (.nodeRef node)) :
    ∃ ds, text = '!' :: ds ∧ word32? ds = some node := by
  cases spelled with
  | nodeRef number => exact ⟨_, rfl, number⟩
  | word _ known => simpa using wordToken?_cases known

/-- A node is written with no more than what it is read from. -/
theorem Node.sign_le {n : Node} {text : List Char} (spelled : Spelling text n.token) :
    solid n.sign.toList ≤ solid text := by
  rcases n with ⟨name, body⟩ | ⟨node, body⟩
  · obtain rfl := Spelling.of_nodeName spelled
    rw [sign, String.toList_append]
    exact Nat.le_refl _
  · obtain ⟨ds, rfl, number⟩ := Spelling.of_nodeRef spelled
    have bang : isBlank '!' = false := by decide
    have digits : ∀ {cs : List Char}, (∀ c ∈ cs, c.isDigit = true) → solid ('!' :: cs) = cs.length + 1 :=
      fun all => solid_all (List.forall_mem_cons.mpr
        ⟨bang, fun c mem => isBlank_of_isNameChar (isNameChar_of_isDigit (all c mem))⟩)
    have short := length_toDigits_le number
    have written : (sign (.inr (node, body))).toList = '!' :: Nat.toDigits 10 node.toNat := by
      rw [sign, String.toList_append, toList_toString_nat]
      rfl
    rw [written, digits (digits_of_word32? number).2,
      digits fun c mem => Nat.isDigit_of_mem_toDigits (by decide) (by decide) mem]
    exact Nat.succ_le_succ short

private theorem insertNode_weight (node : UInt32) (text : String)
    (entries : List (UInt32 × String)) :
    ((Module.insertNode node text entries).map fun e => Node.weight (.inr e)).sum ≤
      (entries.map fun e => Node.weight (.inr e)).sum + Node.weight (.inr (node, text)) := by
  induction entries with
  | nil => simp [Module.insertNode]
  | cons e entries ih =>
    unfold Module.insertNode
    split
    · simp only [List.map_cons, List.sum_cons]
      omega
    split
    · simp only [List.map_cons, List.sum_cons]
      omega
    · simp only [List.map_cons, List.sum_cons]
      omega

private theorem weight_eq (m : Module) :
    weight m = (m.namedMetadata.map fun e => Node.weight (.inl e)).sum +
    (m.metadata.map fun e => Node.weight (.inr e)).sum := by
  simp [weight, nodes, Function.comp_def]

private theorem weight_addTo (n : Node) (m : Module) :
    weight (n.addTo m) ≤ weight m + n.weight := by
  rw [weight_eq, weight_eq]
  rcases n with ⟨name, text⟩ | ⟨node, text⟩
  · simp only [Node.addTo, Module.addNamedMetadata, List.map_append, List.map_singleton,
      List.sum_append, List.sum_singleton]
    omega
  · have inserted := insertNode_weight node text m.metadata
    simp only [Node.addTo, Module.addMetadata]
    omega

theorem nodes_addTo (n : Node) (m : Module) : nodes (n.addTo m) ≠ [] := by
  rcases n with ⟨name, text⟩ | ⟨node, text⟩
  · simp [nodes, Node.addTo, Module.addNamedMetadata]
  · have some : Module.insertNode node text m.metadata ≠ [] := by
      cases m.metadata with
      | nil => exact List.cons_ne_nil _ _
      | cons e entries =>
        unfold Module.insertNode
        split
        · exact List.cons_ne_nil _ _
        split
        · exact List.cons_ne_nil _ _
        · exact List.cons_ne_nil _ _
    simp [nodes, Node.addTo, Module.addMetadata, some]

/-! What is left of a text. -/

/-- The tokens are those of the last part of the text. -/
def Remains (src cs : List Char) (ts : List Lexeme) : Prop :=
  ∃ pre, src = pre ++ cs ∧ Lexed (byteLength pre) cs ts

section
variable {src cs : List Char} {ts us rest : List Lexeme} {d d' : Draft}

theorem Remains.first {t : Lexeme} (remains : Remains src cs (t :: ts)) : ∃ gap text pre post,
    cs = gap ++ (text ++ post) ∧ Spelling text t.token ∧ src = pre ++ post ∧
      t.stop = byteLength pre ∧ Lexed (byteLength pre) post ts := by
  obtain ⟨pre, rfl, lexed⟩ := remains
  obtain ⟨gap, text, post, rfl, spelled, stop, rest⟩ := lexed.first
  rw [← byteLength_append] at stop
  exact ⟨gap, text, pre ++ (gap ++ text), post, rfl, spelled, by simp, stop, stop ▸ rest⟩

theorem Remains.behind (remains : Remains src cs (us ++ ts)) :
    ∃ gone post, cs = gone ++ post ∧ Remains src post ts := by
  induction us generalizing cs with
  | nil => exact ⟨[], cs, rfl, remains⟩
  | cons t us ih =>
    obtain ⟨gap, text, pre, between, rfl, -, same, -, lexed⟩ := remains.first
    obtain ⟨gone, post, rfl, left⟩ := ih ⟨pre, same, lexed⟩
    exact ⟨gap ++ (text ++ gone), post, by simp, left⟩

/-- The text of a node is its line, and a quotation that is open at its end takes more. -/
theorem readNode_line {σ : Type} {s s' : σ} {pre post : List Char} {first sign : Lexeme} {text : String}
    (place : src = pre ++ post) (lexed : Lexed (byteLength pre) post ts)
    (stop : sign.stop = byteLength pre)
    (read : Reads (readNode src first) (sign :: ts) s text rest s') :
    s' = s ∧ text = trimmed (String.ofList (post.takeWhile (· != '\n'))) ∧
      ∃ gone after, post.dropWhile (· != '\n') = gone ++ after ∧ Remains src after rest ∧
        ('"' ∈ gone ∨
          gone = [] ∧ ∃ us, Lexed (byteLength pre) (post.takeWhile (· != '\n')) us) := by
  subst place
  obtain ⟨took, _, _, taking, more⟩ := reads_bind.mp read
  obtain ⟨reading, whole⟩ := reads_taken.mp taking
  obtain ⟨_, same, -, rfl⟩ := reads_expect.mp reading
  obtain ⟨rfl, rfl⟩ := List.cons.inj same
  obtain rfl : took = [sign] := List.append_cancel_right whole.symm
  have split := List.takeWhile_append_dropWhile (p := (· != '\n')) (l := post)
  have piece := slice?_append pre (post.takeWhile (· != '\n')) (post.dropWhile (· != '\n'))
  rw [split, ← firstLine] at piece
  have line := lineEnd?_behind pre post
  simp only [reads_bind, reads_present, restOfLine, reads_taken, reads_skipWhile, reads_pure] at more
  obtain ⟨_, _, _, ⟨last, rfl, rfl⟩, _, _, _, ⟨found, rfl, rfl⟩, _, _, _,
    ⟨_, _, _, ⟨again, rfl, rfl⟩, ⟨rfl, rfl⟩, -⟩, _, _, _, ⟨cut, rfl, rfl⟩, rfl, rfl, rfl⟩ := more
  obtain rfl : sign = _ := Option.some.inj last
  rw [stop, line] at found again
  obtain rfl := Option.some.inj found
  obtain rfl := Option.some.inj again
  rw [stop, piece] at cut
  obtain rfl := Option.some.inj cut
  refine ⟨rfl, rfl, ?_⟩
  rw [firstLine]
  cases lexed.behind (line_stop post) split.symm with
  | parted own behind =>
    refine ⟨[], _, rfl, ⟨pre ++ post.takeWhile (· != '\n'), by simp [split], ?_⟩,
      .inr ⟨rfl, _, own⟩⟩
    rwa [byteLength_append]
  | @quoted front after same quote behind =>
    refine ⟨front, after, same, ⟨pre ++ (post.takeWhile (· != '\n') ++ front), ?_, ?_⟩, .inl quote⟩
    · rw [List.append_assoc, List.append_assoc, ← same, split]
    · rwa [byteLength_append]

private theorem readNode_sign {σ : Type} {s s' : σ} {first : Lexeme} {text : String}
    (read : Reads (readNode src first : Read σ String) ts s text rest s') : ∃ sign more, ts = sign :: more := by
  obtain ⟨took, _, _, taking, -⟩ := reads_bind.mp read
  obtain ⟨sign, same, -⟩ := reads_expect.mp (reads_taken.mp taking).1
  exact ⟨sign, _, same⟩

private theorem entity_nodes {t : Lexeme} {u : Unit} (source : Source src (t :: ts))
    (whole : Reads (readEntity src t) ts d u rest d') : SameNodes d.module d'.module ∨
      ∃ n : Node, t.token = n.token ∧ Reads (readNode src t) ts d n.body rest d ∧
        d' = { d with module := n.addTo d.module } := by
  have behind : Source src ts := source.suffix (List.suffix_cons t ts)
  unfold readEntity at whole
  split at whole
  · exact .inl (filename_read behind whole).2
  · exact .inl (target_read behind whole).2
  · exact .inl (declaration_read source whole).2
  · exact .inl (definition_read behind whole).2
  · obtain ⟨line, _, _, taking, spans⟩ := reads_bind.mp whole
    obtain ⟨rfl, -, -⟩ := restOfLine_read taking
    obtain ⟨_, _, _, spanning, last⟩ := reads_bind.mp spans
    obtain ⟨-, rfl, rfl⟩ := spanning.spanned
    obtain ⟨-, rfl⟩ := reads_update.mp last
    exact .inl ⟨rfl, rfl⟩
  · exact absurd whole reads_refuseAt
  · rename_i name token
    exact .inl (global_read source token whole).2
  · obtain ⟨line, _, _, taking, spans⟩ := reads_bind.mp whole
    obtain ⟨rfl, -, -⟩ := restOfLine_read taking
    obtain ⟨_, _, _, spanning, last⟩ := reads_bind.mp spans
    obtain ⟨-, rfl, rfl⟩ := spanning.spanned
    obtain ⟨-, rfl⟩ := reads_update.mp last
    exact .inl ⟨rfl, rfl⟩
  · rename_i node token
    obtain ⟨text, _, _, reading, last⟩ := reads_bind.mp whole
    obtain ⟨rfl, -⟩ := node_read behind reading
    obtain ⟨rfl, rfl⟩ := reads_update.mp last
    exact .inr ⟨.inr (node, text), token, reading, rfl⟩
  · rename_i name token
    obtain ⟨text, _, _, reading, last⟩ := reads_bind.mp whole
    obtain ⟨rfl, -⟩ := node_read behind reading
    obtain ⟨rfl, rfl⟩ := reads_update.mp last
    exact .inr ⟨.inl (name, text), token, reading, rfl⟩
  · exact absurd whole reads_refuseAt

theorem SameNodes.nodes {m m' : Module} (same : SameNodes m m') : nodes m' = nodes m := by
  rw [Listing.nodes, Listing.nodes, same.1, same.2]

theorem SameNodes.weight {m m' : Module} (same : SameNodes m m') : weight m' = weight m := by
  rw [Listing.weight, Listing.weight, same.nodes]

/-- An entity puts no more into the nodes than there was of its text. -/
theorem entity_weight {t : Lexeme} {u : Unit} (source : Source src (t :: ts))
    (remains : Remains src cs (t :: ts)) (whole : Reads (readEntity src t) ts d u rest d') :
    ∃ after, Remains src after rest ∧
      weight d'.module + solid after ≤ weight d.module + solid cs := by
  rcases entity_nodes source whole with same | ⟨n, token, read, rfl⟩
  · obtain ⟨front, rfl⟩ := whole.suffix
    rw [← List.cons_append] at remains
    obtain ⟨gone, after, rfl, left⟩ := remains.behind
    rw [same.weight, solid_append]
    exact ⟨after, left, by omega⟩
  · obtain ⟨gap, text, pre, post, rfl, spelled, place, -, lexed⟩ := remains.first
    obtain ⟨sign, more, rfl⟩ := readNode_sign read
    have left : Remains src post (sign :: more) := ⟨pre, place, lexed⟩
    obtain ⟨gap', equals, pre', line, rfl, spelled', place', stop, behind⟩ := left.first
    obtain ⟨-, body, gone, after, split, left, -⟩ := readNode_line place' behind stop read
    refine ⟨after, left, ?_⟩
    have added := weight_addTo n d.module
    have signs := Node.sign_le (token ▸ spelled)
    have equals_pos := spelled'.solid_pos
    have body_eq : solid n.body.toList = solid (line.takeWhile (· != '\n')) := by
      rw [body, solid_trimmed, String.toList_ofList]
    have line_eq := congrArg solid (List.takeWhile_append_dropWhile (p := (· != '\n')) (l := line))
    rw [split, solid_append, solid_append] at line_eq
    rw [n.weight_eq] at added
    simp only [solid_append]
    omega

private theorem entities_weight {u : Unit} (source : Source src ts) (remains : Remains src cs ts)
    (read : Reads (readEntities src) ts d u rest d') :
    weight d'.module ≤ weight d.module + solid cs := by
  have all := (reads_whileNext.mp read).preserves (P := fun _ left now => Source src left ∧
    ∃ after, Remains src after left ∧
      weight now.module + solid after ≤ weight d.module + solid cs) ?_ ⟨source, cs, remains, Nat.le_refl _⟩
  · obtain ⟨-, after, -, bound⟩ := all
    omega
  · rintro _ t left now first next between now' picked ⟨source, after, remains, bound⟩ round
    obtain rfl := Option.some.inj picked
    obtain ⟨after', remains', bound'⟩ := entity_weight source remains round
    exact ⟨source.suffix (round.suffix.trans (List.suffix_cons _ _)), after', remains', by omega⟩

/-- Nodes that are entered stay. -/
theorem entities_nodes {u : Unit} (source : Source src ts) (some : nodes d.module ≠ [])
    (read : Reads (readEntities src) ts d u rest d') : nodes d'.module ≠ [] := by
  refine ((reads_whileNext.mp read).preserves
    (P := fun _ left now => Source src left ∧ nodes now.module ≠ []) ?_ ⟨source, some⟩).2
  rintro _ t left now first next between now' picked ⟨source, some⟩ round
  obtain rfl := Option.some.inj picked
  refine ⟨source.suffix (round.suffix.trans (List.suffix_cons _ _)), ?_⟩
  rcases entity_nodes source round with same | ⟨n, -, -, rfl⟩
  · rwa [same.nodes]
  · exact nodes_addTo n now.module

private theorem readEntities_first {t : Lexeme} {u : Unit}
    (read : Reads (readEntities src) (t :: ts) d u rest d') : ∃ between now,
      Reads (readEntity src t) ts d () between now ∧ Reads (readEntities src) between now u rest d' := by
  cases reads_whileNext.mp read with
  | finish ends => exact absurd (ends t ts rfl) (Option.some_ne_none t)
  | round picked once more =>
    obtain rfl := Option.some.inj picked
    exact ⟨_, _, once, reads_whileNext.mpr more⟩

private theorem entity_node {t : Lexeme} {u : Unit} {n : Node} (token : t.token = n.token)
    (whole : Reads (readEntity src t) ts d u rest d') : ∃ text now,
      Reads (readNode src t) ts d text rest now ∧
        (text = n.body → d' = { now with module := n.addTo now.module }) := by
  rcases n with ⟨name, body⟩ | ⟨node, body⟩
  · have token : t.token = .nodeName name := token
    rw [readEntity, token] at whole
    obtain ⟨text, _, now, reading, last⟩ := reads_bind.mp whole
    obtain ⟨rfl, rfl⟩ := reads_update.mp last
    exact ⟨text, now, reading, fun same => same ▸ rfl⟩
  · have token : t.token = .nodeRef node := token
    rw [readEntity, token] at whole
    obtain ⟨text, _, now, reading, last⟩ := reads_bind.mp whole
    obtain ⟨rfl, rfl⟩ := reads_update.mp last
    exact ⟨text, now, reading, fun same => same ▸ rfl⟩

/-! The lines at the end. -/

def nodeLines (ns : List Node) : List Char := ns.flatMap fun n => n.text.toList ++ ['\n']

theorem solid_nodeLines (ns : List Node) : solid (nodeLines ns) = (ns.map Node.weight).sum := by
  have line : solid ['\n'] = 0 := by decide
  induction ns with
  | nil => rfl
  | cons n ns ih =>
    rw [nodeLines, List.flatMap_cons, solid_append, solid_append, line, List.map_cons, List.sum_cons, ← ih]
    rfl

theorem nodeLines_cons (n : Node) (ns : List Node) : nodeLines (n :: ns) =
    n.sign.toList ++ ' ' :: (['='] ++ (' ' :: n.body.toList ++ '\n' :: nodeLines ns)) := by
  have equals : " = ".toList = [' ', '=', ' '] := rfl
  simp [nodeLines, n.text_eq, equals]

/-- One line. Either it consists of whole tokens, or a quotation takes more than the line. -/
theorem line_read {n : Node} (known : n.Known) {ns : List Node} {u : Unit}
    (remains : Remains src (nodeLines (n :: ns)) ts) (read : Reads (readEntities src) ts d u rest d') :
    ∃ between gone after, '\n' :: nodeLines ns = gone ++ after ∧ Remains src after between ∧
      between <:+ ts ∧
      Reads (readEntities src) between { d with module := n.addTo d.module } u rest d' ∧
      ('"' ∈ gone ∨ gone = [] ∧ Lexable n.body) := by
  obtain ⟨pre, place, lexed⟩ := remains
  rw [nodeLines_cons] at place lexed
  have ends : ∀ cs, Ends (' ' :: cs) := fun _ => ends_cons (by decide)
  have blank : isGap ' ' = true := by decide
  have sign : Spelling ['='] (.punct .equals) := .punct (by decide) rfl
  obtain ⟨us, rfl, spaced⟩ := known.spelled.lexed_inv (ends _) lexed
  obtain ⟨vs, rfl, said⟩ := sign.lexed_inv (ends _) (spaced.of_gap blank)
  obtain ⟨between, now, once, more⟩ := readEntities_first read
  obtain ⟨text, _, reading, enters⟩ := entity_node rfl once
  have place' : src = pre ++ (n.sign.toList ++ [' ', '=']) ++
      (' ' :: n.body.toList ++ '\n' :: nodeLines ns) := by
    simp [place]
  have stop : byteLength pre + byteLength n.sign.toList + (' ' : Char).utf8Size + byteLength ['='] =
      byteLength (pre ++ (n.sign.toList ++ [' ', '='])) := by
    simp [Nat.add_assoc]
  -- What the node says is the rest of its line.
  have flat : ∀ c ∈ ' ' :: n.body.toList, (c != '\n') = true :=
    List.forall_mem_cons.mpr ⟨by decide, fun c mem => by simpa using known.1.flat c mem⟩
  have line : (' ' :: n.body.toList ++ '\n' :: nodeLines ns).takeWhile (· != '\n') =
      ' ' :: n.body.toList :=
    takeWhile_append_stop flat (by rintro _ ⟨⟩; rfl)
  have later : (' ' :: n.body.toList ++ '\n' :: nodeLines ns).dropWhile (· != '\n') =
      '\n' :: nodeLines ns := by
    rw [List.dropWhile_append_of_pos flat]
    rfl
  obtain ⟨rfl, rfl, gone, after, split, left, whole⟩ := readNode_line place' (stop ▸ said) stop reading
  rw [line] at enters whole
  have body : trimmed (String.ofList (' ' :: n.body.toList)) = n.body := by
    have spaced : String.ofList (' ' :: n.body.toList) = " " ++ n.body := by
      simp
    rw [spaced, trimmed_space _ known.1.trim]
  obtain rfl := enters body
  refine ⟨between, gone, after, later.symm.trans split, left, ?_, more, whole.imp_right ?_⟩
  · exact once.suffix.trans (List.suffix_cons _ _)
  · rintro ⟨rfl, us, own⟩
    rw [← String.toList_ofList (l := ' ' :: n.body.toList)] at own
    obtain ⟨vs, alone⟩ := own.trimmed
    rw [body] at alone
    exact ⟨rfl, vs, alone.lexFrom⟩

/-- If nodes are read from these lines, then either all of them consist of whole tokens, or less is in
them than there was on the lines. -/
theorem lines_lexable {ns : List Node} (known : ∀ n ∈ ns, n.Known) {u : Unit} (source : Source src ts)
    (remains : Remains src (nodeLines ns) ts) (read : Reads (readEntities src) ts d u rest d') :
    (∀ n ∈ ns, Lexable n.body) ∨
      weight d'.module < weight d.module + (ns.map Node.weight).sum := by
  induction ns generalizing d ts with
  | nil => exact .inl nofun
  | cons n ns ih =>
    obtain ⟨here, others⟩ := List.forall_mem_cons.mp known
    obtain ⟨between, gone, after, split, left, suffix, more, whole⟩ := line_read here remains read
    have behind := source.suffix suffix
    have added := weight_addTo n d.module
    rw [List.map_cons, List.sum_cons]
    rcases whole with quote | ⟨rfl, lexable⟩
    · right
      have bound := entities_weight behind left more
      have lost := solid_pos quote (by decide)
      have line : solid ['\n'] = 0 := by decide
      have lines := congrArg solid split
      rw [← List.singleton_append, solid_append, solid_append, solid_nodeLines, line] at lines
      dsimp only at bound
      omega
    · obtain ⟨pre, place, lexed⟩ := left
      rw [List.nil_append] at split
      rw [← split] at place lexed
      have next : Remains src (nodeLines ns) between := ⟨pre ++ ['\n'], by simp [place], by
        simpa using lexed.of_gap (by decide)⟩
      rcases ih others behind next more with all | less
      · exact .inl (List.forall_mem_cons.mpr ⟨lexable, all⟩)
      · right
        dsimp only at less
        omega

/-- What is read behind some entities. -/
theorem Goes.behind {d₁ : Draft} {u : Unit} (goes : Goes src ts d us d₁)
    (read : Reads (readEntities src) ts d u rest d') : Reads (readEntities src) us d₁ u rest d' := by
  induction goes with
  | done => exact read
  | entity once _ ih =>
    obtain ⟨between, now, once', more⟩ := readEntities_first read
    obtain ⟨-, rfl, rfl⟩ := once.unique once'
    exact ih more

end

end BlockTally.Listing
