import BlockTally.Proofs.Listing.Headers
import BlockTally.Proofs.Listing.Origin
import BlockTally.Proofs.Listing.Passed

/-! What is known of the first line of a function that is read: its parameters are values of their
own, and the text that is kept lexes by itself. Main statement: `header_read`. -/
namespace BlockTally

/-- A function of which the first line is read. Its values are its parameters. -/
structure Function.Headed (f : Function) : Prop where
  built : f.Built
  blocks : f.blocks = []
  name : Listing.Unquoted f.name
  ret : f.ret.InRange
  params : f.params = (List.range f.values.length).map .mk
  values : ∀ v ∈ f.values, v.origin ≠ .instruction ∧ v.ty.InRange ∧ Listing.Unquoted v.name
  lead : Listing.KeptWords true Listing.isTyWord f.attrs.lead
  attrs : f.attrs.params.length = f.params.length
  kept : ∀ text ∈ f.attrs.params, Listing.KeptParam text

namespace Listing
open Text Read

section
variable {σ : Type} {src : List Char} {ts rest : List Lexeme} {s s' : σ}

private theorem optionalGroup_read (whole : Reads (optionalGroup : Read σ Unit) ts s u rest s') :
    s' = s ∧ ∃ run, ts = run ++ rest ∧ (run.map (·.token) = [] ∨ ∃ inside,
      run.map (·.token) = .punct .lparen :: inside ∧ closes .lparen .rparen 1 inside = true) := by
  simp only [optionalGroup, reads_bind, reads_peekToken] at whole
  obtain ⟨_, _, _, ⟨rfl, rfl, rfl⟩, read⟩ := whole
  split at read
  · obtain ⟨l, inside, rfl, opens, found, rfl⟩ := reads_group.mp read
    obtain ⟨front, rfl, ends⟩ := afterGroup_eq_some.mp found
    exact ⟨rfl, l :: front, rfl, .inr ⟨_, by rw [List.map_cons, opens], ends⟩⟩
  · obtain ⟨-, rfl, rfl⟩ := reads_pure.mp read
    exact ⟨rfl, [], rfl, .inl rfl⟩

private theorem argument_read {numbered : Prop} [Decidable numbered]
    (whole : Reads (do
        if numbered then
          let _ ← accept fun | .int _ => some () | _ => none
        optionalGroup : Read σ Unit) ts s u rest s') :
    s' = s ∧ ∃ run, ts = run ++ rest ∧ IsArgument numbered (run.map (·.token)) := by
  split at whole
  · rename_i yes
    obtain ⟨found, _, _, number, group⟩ := reads_bind.mp whole
    obtain ⟨rfl, run, split, known⟩ := optionalGroup_read group
    cases found with
    | none =>
      obtain ⟨-, rfl, rfl⟩ := reads_accept.mp number
      exact ⟨rfl, run, split, [], _, rfl, .inl rfl, known⟩
    | some _ =>
      obtain ⟨l, rfl, int, rfl⟩ := reads_accepted number
      refine ⟨rfl, l :: run, by rw [split]; rfl, [l.token], _, rfl, .inr ⟨yes, ?_⟩, known⟩
      cases token : l.token with
      | int value => exact ⟨value, rfl⟩
      | _ =>
        rw [token] at int
        cases int
  · obtain ⟨rfl, run, split, known⟩ := optionalGroup_read whole
    exact ⟨rfl, run, split, [], _, rfl, .inl rfl, known⟩

private theorem attributes_read (read : Reads (skipAttributes : Read σ Unit) ts s u rest s') :
    s' = s ∧ ∃ run, ts = run ++ rest ∧ AreAttributes (run.map (·.token)) := by
  refine (reads_whileNext.mp read).preserves
    (P := fun _ left now => now = s ∧ ∃ run, ts = run ++ left ∧ AreAttributes (run.map (·.token))) ?_
    ⟨rfl, [], rfl, [], by simp, rfl⟩
  rintro _ t left now b _ between after picked ⟨rfl, run, rfl, attrs, known, same⟩ round
  suffices one : ∃ attr : Attribute, attr.Known ∧ after = now ∧ ∃ more, left = more ++ between ∧
      attr.first :: attr.behind = t.token :: more.map (·.token) by
    obtain ⟨attr, here, rfl, more, rfl, tokens⟩ := one
    refine ⟨rfl, run ++ t :: more, by simp, attrs ++ [attr], ?_, ?_⟩
    · exact fun a mem => (List.mem_append.mp mem).elim (known a) fun last =>
        List.mem_singleton.mp last ▸ here
    · rw [List.map_append, same, List.flatMap_append, List.flatMap_singleton, tokens, List.map_cons]
  cases token : t.token with
  | attrRef =>
    rw [token] at picked
    cases picked
    obtain ⟨-, rfl, rfl⟩ := reads_pure.mp round
    exact ⟨.group, trivial, rfl, [], rfl, rfl⟩
  | word text =>
    rw [token] at picked
    dsimp only at picked
    split at picked
    · rename_i plain
      cases picked
      dsimp only at round
      obtain ⟨rfl, more, rfl, argument⟩ := argument_read round
      refine ⟨.word text (more.map (·.token)), ⟨?_, ?_, argument⟩, rfl, more, rfl, rfl⟩
      · simpa using (Bool.and_eq_true_iff.mp plain).1
      · simpa using (Bool.and_eq_true_iff.mp plain).2
    · cases picked
  | _ => simp [token] at picked

/-- The pieces of which the words are, but for those that tell the linkage. -/
def Collected (numbered : Bool) (isLast : String → Bool) (words : Words) : Prop :=
  ∃ pieces : List Piece, words.others = pieces.map (·.text) ∧
    ∀ p ∈ pieces, p.Known numbered ∧ isLast p.word = false ∧ Linkage.ofKeyword? p.word = none

theorem Collected.kept {numbered : Bool} {isLast : String → Bool} {words : Words}
    (collected : Collected numbered isLast words) :
    KeptWords numbered isLast (" ".intercalate words.others) := by
  obtain ⟨pieces, same, known⟩ := collected
  exact ⟨pieces, by rw [same], known⟩

theorem Collected.add {numbered : Bool} {isLast : String → Bool} {words : Words} {p : Piece}
    (collected : Collected numbered isLast words) (known : p.Known numbered)
    (other : isLast p.word = false) : Collected numbered isLast (words.add p.word p.text) := by
  obtain ⟨pieces, same, each⟩ := collected
  unfold Words.add
  split
  · exact ⟨pieces, same, each⟩
  · rename_i plain
    refine ⟨pieces ++ [p], by rw [same, List.map_append]; rfl, fun q mem => ?_⟩
    rcases List.mem_append.mp mem with old | last
    · exact each q old
    · rw [List.mem_singleton.mp last]
      exact ⟨known, other, plain⟩

/-- The text is that of a run among the tokens that are read. -/
def SpanIn (src : List Char) (ts rest : List Lexeme) (text : String) : Prop :=
  ∃ run more, run ≠ [] ∧ text = spanText src run ∧ run ++ more <:+ ts ∧ rest <:+ more

theorem SpanIn.mono {text : String} {us left : List Lexeme} (span : SpanIn src ts rest text)
    (more : ts <:+ us) (less : left <:+ rest) : SpanIn src us left text := by
  obtain ⟨run, behind, some, rfl, inside, later⟩ := span
  exact ⟨run, behind, some, rfl, inside.trans more, less.trans later⟩

private theorem others_add {words : Words} {word text other : String}
    (mem : other ∈ (words.add word text).others) : other ∈ words.others ∨ other = text := by
  unfold Words.add at mem
  split at mem
  · exact .inl mem
  · exact (List.mem_append.mp mem).imp_right List.mem_singleton.mp

/-- Words before a symbol. -/
theorem words_read {isLast : String → Bool} {numbered : Bool} {words : Words}
    (source : Source src ts)
    (read : Reads (readWords src isLast numbered : Read σ Words) ts s words rest s') :
    s' = s ∧ rest <:+ ts ∧ Collected numbered isLast words ∧
      ∀ text ∈ words.others, SpanIn src ts rest text := by
  refine (reads_whileNext.mp read).preserves
    (P := fun words left now => now = s ∧ left <:+ ts ∧ Collected numbered isLast words ∧
      ∀ text ∈ words.others, SpanIn src ts left text) ?_
    ⟨rfl, List.suffix_refl ts, ⟨[], rfl, by simp⟩, by simp⟩
  rintro words t left now ⟨first, word⟩ found between after picked
    ⟨rfl, suffix, collected, spans⟩ round
  obtain ⟨rfl, token, other⟩ : t = first ∧ t.token = .word word ∧ isLast word = false := by
    cases token : t.token with
    | word text =>
      rw [token] at picked
      dsimp only at picked
      split at picked
      · cases picked
      · rename_i other
        cases picked
        exact ⟨rfl, rfl, by simpa using other⟩
    | _ => simp [token] at picked
  obtain ⟨argument, _, _, taking, last⟩ := reads_bind.mp round
  obtain ⟨reading, rfl⟩ := reads_taken.mp taking
  obtain ⟨rfl, run, split, known⟩ := argument_read reading
  obtain ⟨rfl, rfl, rfl⟩ := last.added
  obtain rfl := List.append_cancel_right split
  have behind : between <:+ t :: (argument ++ between) := ⟨t :: argument, rfl⟩
  obtain ⟨vs, o, raw, same, -⟩ := (source.suffix suffix).raw (t :: argument) between
  refine ⟨rfl, behind.trans suffix, ?_, fun text mem => ?_⟩
  · refine collected.add (p := ⟨word, argument.map (·.token), _⟩) ⟨known, vs, raw, ?_⟩ other
    have tokens := congrArg (List.map (·.token)) same
    rw [map_token_shift, List.map_cons, token] at tokens
    exact tokens.symm
  · rcases others_add mem with old | rfl
    · exact (spans text old).mono (List.suffix_refl ts) behind
    · exact ⟨t :: argument, between, List.cons_ne_nil _ _, rfl, suffix, List.suffix_refl _⟩

private theorem unquoted_number (n : Nat) : Unquoted (toString n) := by
  intro c mem quote
  rw [toList_toString_nat, quote] at mem
  exact absurd (Nat.isDigit_of_mem_toDigits (b := 10) (by decide) (by decide) mem) (by decide)

theorem unquoted_freshName {taken : List String} {count : Nat} {hint : String}
    (unquoted : Unquoted hint) : Unquoted (freshName taken count hint) := by
  rcases freshName_cases taken count hint with ⟨same, -⟩ | ⟨n, same⟩
  · rwa [same]
  · rw [same]
    intro c mem
    rw [String.toList_append] at mem
    rcases List.mem_append.mp mem with front | digits
    · exact unquoted c front
    · exact unquoted_number _ c digits

private theorem headed_add {f : Function} (headed : f.Headed) {p : Param} (known : p.Known) :
    (p.addTo f).Headed where
  built := headed.built.steps (.tail (.single (.setAttrs f _)) (.addParam _ _ _))
  blocks := headed.blocks
  name := headed.name
  ret := headed.ret
  params := by
    simp [Param.addTo, Function.addParam, Function.addValue, headed.params, List.range_succ]
  values := by
    intro v mem
    rcases List.mem_append.mp mem with old | last
    · exact headed.values v old
    · rw [List.mem_singleton.mp last]
      refine ⟨by simp, known.ty, unquoted_freshName ?_⟩
      cases given : p.name with
      | none =>
        intro c mem
        simp at mem
      | some name => exact known.name name given
  lead := headed.lead
  attrs := by simp [Param.addTo, Function.addParam, Function.addValue, headed.attrs]
  kept := by
    intro text mem
    rcases List.mem_append.mp mem with old | last
    · exact headed.kept text old
    · exact List.mem_singleton.mp last ▸ known.attrs

private theorem param_read {f g : Function} (source : Source src ts) (headed : f.Headed)
    (whole : Reads (readParam src f : Read σ Function) ts s g rest s') :
    s' = s ∧ rest <:+ ts ∧ g.Headed := by
  have suffix := whole.suffix
  obtain ⟨dots, _, _, eaten, read⟩ := reads_bind.mp whole
  obtain ⟨-, rfl⟩ := eat_passes rfl eaten
  split at read
  · obtain ⟨rfl, rfl, rfl⟩ := reads_pure.mp read
    exact ⟨rfl, suffix, { headed with built := headed.built.steps (.single (.setVariadic f true)) }⟩
  · obtain ⟨ty, between, _, type, behind⟩ := reads_bind.mp read
    obtain ⟨-, rfl, inRange⟩ := readTy_passes type
    obtain ⟨attrs, _, _, taking, spans⟩ := reads_bind.mp behind
    obtain ⟨reading, rfl⟩ := reads_taken.mp taking
    obtain ⟨_, after, _, spanning, last⟩ := reads_bind.mp spans
    obtain ⟨rfl, rfl, rfl⟩ := spanning.spanned
    obtain ⟨rfl, run, split, known⟩ := attributes_read reading
    obtain rfl := List.append_cancel_right split
    have left : Source src (attrs ++ after) := source.suffix (type.suffix.trans eaten.suffix)
    obtain ⟨vs, o, raw, same, -⟩ := left.raw attrs after
    have kept : KeptParam (spanText src attrs) := by
      refine ⟨vs, raw, ?_⟩
      rwa [same, map_token_shift] at known
    simp only [reads_bind, reads_peek] at last
    obtain ⟨_, _, _, ⟨rfl, rfl, rfl⟩, choice⟩ := last
    split at choice
    · rename_i name start stop next
      obtain ⟨_, _, _, skipped, named⟩ := reads_bind.mp choice
      obtain ⟨rfl, rfl⟩ := reads_skip.mp skipped
      split at named
      · exact absurd named reads_refuseAt
      · obtain ⟨rfl, rfl, rfl⟩ := reads_pure.mp named
        have unquoted : Unquoted name :=
          left.right.lettered ⟨.localName name, start, stop⟩ (List.mem_of_mem_head? next)
        exact ⟨rfl, suffix, headed_add headed (p := ⟨ty, spanText src attrs, some name⟩)
          ⟨inRange, kept, by simpa using unquoted⟩⟩
    · obtain ⟨rfl, rfl, rfl⟩ := reads_pure.mp choice
      exact ⟨rfl, suffix, headed_add headed (p := ⟨ty, spanText src attrs, none⟩)
        ⟨inRange, kept, by simp⟩⟩

private theorem slots_read {f g : Function} (source : Source src ts) (headed : f.Headed)
    (whole : Reads (readSlots src f : Read σ Function) ts s g rest s') : s' = s ∧ g.Headed := by
  obtain ⟨empty, _, _, eaten, read⟩ := reads_bind.mp whole
  obtain ⟨-, rfl⟩ := eat_passes rfl eaten
  split at read
  · obtain ⟨rfl, rfl, rfl⟩ := reads_pure.mp read
    exact ⟨rfl, headed⟩
  · obtain ⟨first, _, _, one, more⟩ := reads_bind.mp read
    have left := source.suffix eaten.suffix
    obtain ⟨rfl, suffix, headed⟩ := param_read left headed one
    obtain ⟨found, _, _, others, closing⟩ := reads_bind.mp more
    obtain ⟨rfl, -, headed⟩ := (reads_whileNext.mp others).preserves
      (P := fun f left now => now = _ ∧ Source src left ∧ f.Headed) (by
        rintro f t later now _ g between after - ⟨rfl, here, headed⟩ round
        have here := here.suffix (List.suffix_cons t later)
        obtain ⟨rfl, further, headed⟩ := param_read here headed round
        exact ⟨rfl, here.suffix further, headed⟩) ⟨rfl, left.suffix suffix, headed⟩
    split at closing
    · simp only [reads_bind, reads_pure] at closing
      obtain ⟨_, _, _, paren, rfl, rfl, rfl⟩ := closing
      obtain ⟨-, rfl⟩ := expect_passes rfl paren
      exact ⟨rfl, headed⟩
    · obtain ⟨closed, _, _, paren, last⟩ := reads_bind.mp closing
      obtain ⟨-, rfl⟩ := eat_passes rfl paren
      split at last
      · obtain ⟨rfl, rfl, rfl⟩ := reads_pure.mp last
        exact ⟨rfl, headed⟩
      · exact absurd last reads_unexpected

/-- Return type, name and parameters. -/
theorem signature_read {words : Words} {f : Function} (source : Source src ts)
    (lead : Collected true isTyWord words)
    (whole : Reads (readSignature src words : Read σ Function) ts s f rest s') :
    s' = s ∧ f.Headed := by
  rw [readSignature_eq] at whole
  simp only [reads_bind, reads_demand, reads_expect] at whole
  obtain ⟨ret, _, _, type, name, _, _, ⟨t, rfl, sign, rfl⟩, _, _, _, ⟨l, rfl, -, rfl⟩, slots⟩ := whole
  obtain ⟨-, rfl, inRange⟩ := readTy_passes type
  have left := source.suffix type.suffix
  have token : t.token = .globalName name := by
    cases token : t.token with
    | globalName found =>
      rw [token] at sign
      rw [Option.some.inj sign]
    | _ =>
      rw [token] at sign
      cases sign
  have unquoted : Unquoted name := by
    have lettered := left.lettered t List.mem_cons_self
    rwa [token] at lettered
  refine slots_read (left.suffix ((List.suffix_cons _ _).trans (List.suffix_cons _ _))) ?_ slots
  refine ⟨⟨name, ret, ?_⟩, rfl, unquoted, inRange, rfl, by simp [Listing.headed], lead.kept, rfl,
    by simp [Listing.headed]⟩
  exact .tail (.single (.setLinkage _ words.linkage)) (.setAttrs _ _)

theorem header_read {f : Function} (source : Source src ts)
    (whole : Reads (readHeader src : Read σ Function) ts s f rest s') :
    s' = s ∧ rest <:+ ts ∧ f.Headed := by
  obtain ⟨words, between, _, first, read⟩ := reads_bind.mp whole
  obtain ⟨rfl, suffix, lead, -⟩ := words_read source first
  simp only [reads_bind, reads_peekToken] at read
  obtain ⟨_, _, _, ⟨rfl, rfl, rfl⟩, choice⟩ := read
  split at choice
  · have further := choice.suffix
    obtain ⟨rfl, headed⟩ := signature_read (source.suffix suffix) lead choice
    exact ⟨rfl, further.trans suffix, headed⟩
  · exact absurd choice reads_unexpected

end

end Listing

end BlockTally
