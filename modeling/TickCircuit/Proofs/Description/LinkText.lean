import TickCircuit.Description.Document
import TickCircuit.Proofs.Grammar.Phrase
import TickCircuit.Proofs.Text.Count
import TickCircuit.Proofs.Text.Split
/-!
Link texts read back. A text is cut at the first arrow, then at the first colon, then at the first
slash of either end; a gate id may hold any mark at which the text is cut before. Main statements:
what was read is printed so that every cut falls where it fell (`LinkSpec.Readable.parse_text`), and
links and paths read back as they were read (`links_and_paths_read_back`).
-/
namespace TickCircuit

namespace Text

/-- A character that ends a part of a link text, or that is trimmed off. -/
def isMark (c : Char) : Bool := isBlank c || c == '/' || c == '=' || c == ':'

def Unmarked (s : List Char) : Prop := ∀ c ∈ s, isMark c = false

theorem unmarked_of_any {s : List Char} (h : s.any isMark = false) : Unmarked s :=
  fun c hc => by simpa using List.any_eq_false.mp h c hc

theorem Unmarked.not_mem {s : List Char} (h : Unmarked s) {c : Char} (hc : isMark c = true) :
    c ∉ s := fun hm => by simp [h c hm] at hc

theorem Unmarked.trim_eq {s : List Char} (h : Unmarked s) : trim s = s := by
  refine trim_of_isBlank fun c hc => ?_
  have hmark := h c hc
  simp only [isMark, Bool.or_eq_false_iff] at hmark
  exact hmark.1.1.1

theorem isMark_of_isDigit {c : Char} (h : c.isDigit) : isMark c = false := by
  simp only [isMark, Bool.or_eq_false_iff, beq_eq_false_iff_ne]
  exact ⟨⟨⟨isBlank_of_isDigit h, ne_of_isDigit h rfl⟩, ne_of_isDigit h rfl⟩, ne_of_isDigit h rfl⟩

theorem unmarked_countText (n : Nat) : Unmarked (countText n) :=
  fun _ hc => isMark_of_isDigit (isDigit_of_mem_countText hc)

end Text

open Text

theorem Step.unmarked_text (s : Step) : Unmarked s.text := by
  cases s with
  | index n => exact unmarked_countText n
  | next => exact unmarked_of_any rfl

theorem Step.text_ne_nil (s : Step) : s.text ≠ [] := by
  cases s with
  | index n => exact countText_ne_nil n
  | next => decide

theorem Step.parse_text {s : Step} (h : ∀ n, s = .index n → n < wordLimit) :
    Step.parse s.text = some s := by
  cases s with
  | index n =>
    rw [Step.text, Step.parse, if_neg (countText_ne rfl []), readCount_countText (h n rfl)]
    rfl
  | next => rfl

theorem Step.index_lt {text : List Char} {n : Nat} (h : Step.parse text = some (.index n)) :
    n < wordLimit := by
  unfold Step.parse at h
  split at h
  · cases h
  · obtain ⟨m, hm, he⟩ := Option.map_eq_some_iff.mp h
    cases he
    exact readCount_lt hm

/-- No index of the path is too large for one machine word. -/
def PathSpec.Fits (p : PathSpec) : Prop := ∀ n, .index n ∈ p → n < wordLimit

theorem PathSpec.fits_parse {text : List Char} {p : PathSpec} (h : PathSpec.parse text = .ok p) :
    p.Fits := by
  intro n hn
  obtain ⟨part, -, hpart⟩ := mem_of_mapM h hn
  split at hpart
  next hs =>
    cases hpart
    exact Step.index_lt hs
  next => cases hpart

theorem PathSpec.parse_text {p : PathSpec} (h : p.Fits) : PathSpec.parse p.text = .ok p := by
  have hunmarked : ∀ piece ∈ p.map Step.text, Unmarked piece := fun piece hpiece => by
    obtain ⟨s, -, rfl⟩ := List.mem_map.mp hpiece
    exact s.unmarked_text
  have hsplit : p ≠ [] → splitEvery '/' p.text = p.map Step.text := fun hp =>
    splitEvery_intercalate (by simpa using hp) fun piece hpiece =>
      (hunmarked piece hpiece).not_mem rfl
  have htrim : (p.map Step.text).map trim = p.map Step.text :=
    List.map_congr_left (fun piece hpiece => (hunmarked piece hpiece).trim_eq) |>.trans
      (List.map_id _)
  have hfilter : (p.map Step.text).filter (· ≠ []) = p.map Step.text := by
    refine List.filter_eq_self.mpr fun piece hpiece => ?_
    obtain ⟨s, -, rfl⟩ := List.mem_map.mp hpiece
    simp [s.text_ne_nil]
  have hparts : ((splitEvery '/' p.text).map trim).filter (· ≠ []) = p.map Step.text := by
    by_cases hp : p = []
    · rw [hp]
      rfl
    · rw [hsplit hp, htrim, hfilter]
  rw [PathSpec.parse, hparts]
  refine mapM_map_eq_ok fun s hs => ?_
  rw [Step.parse_text fun n hn => h n (hn ▸ hs)]

theorem PathSpec.not_mem_text (p : PathSpec) {c : Char} (hc : isMark c = true) (hslash : c ≠ '/') :
    c ∉ p.text := by
  refine not_mem_intercalate (by simpa using hslash) fun piece hpiece => ?_
  obtain ⟨s, -, rfl⟩ := List.mem_map.mp hpiece
  exact s.unmarked_text.not_mem hc

/-- The id of a gate can be told apart from the marks of a link text and from the boundary. -/
def GateRef.Legible : GateRef → Prop
  | .outside => True
  | .gate id => id.toList ≠ [] ∧ id.toList ≠ outsideName ∧ Unmarked id.toList

theorem GateRef.Legible.unmarked {g : GateRef} (h : g.Legible) : Unmarked g.text := by
  cases g with
  | outside => exact unmarked_of_any rfl
  | gate id => exact h.2.2

/-- The id of a gate as it can be read: nothing to trim off, and no slash, which would end it. -/
def GateRef.Readable : GateRef → Prop
  | .outside => True
  | .gate id => id.toList ≠ [] ∧ id.toList ≠ outsideName ∧ trim id.toList = id.toList ∧
    '/' ∉ id.toList

namespace GateRef.Readable
variable {g : GateRef}

theorem text_ne_nil (h : g.Readable) : g.text ≠ [] := by
  cases g with
  | outside => decide
  | gate id => exact h.1

theorem trim_text (h : g.Readable) : trim g.text = g.text := by
  cases g with
  | outside => rfl
  | gate id => exact h.2.2.1

theorem not_mem_text (h : g.Readable) : '/' ∉ g.text := by
  cases g with
  | outside => decide
  | gate id => exact h.2.2.2

end GateRef.Readable

theorem GateRef.Legible.readable {g : GateRef} (h : g.Legible) : g.Readable := by
  cases g with
  | outside => trivial
  | gate id => exact ⟨h.1, h.2.1, h.2.2.trim_eq, h.2.2.not_mem rfl⟩

structure EndSpec.Readable (e : EndSpec) : Prop where
  gate : e.gate.Readable
  path : e.path.Fits

structure EndSpec.Legible (e : EndSpec) : Prop where
  gate : e.gate.Legible
  path : e.path.Fits

theorem EndSpec.Legible.readable {e : EndSpec} (h : e.Legible) : e.Readable :=
  ⟨h.gate.readable, h.path⟩

theorem EndSpec.parse_text {e : EndSpec} (h : e.Readable) (link : List Char) :
    EndSpec.parse link e.text = .ok e := by
  obtain ⟨g, p⟩ := e
  have hslash : '/' ∉ g.text := h.gate.not_mem_text
  have hsplit : (splitOnce ['/'] (EndSpec.text ⟨g, p⟩)).getD (EndSpec.text ⟨g, p⟩, []) =
      (g.text, p.text) := by
    by_cases hp : p = []
    · subst hp
      rw [EndSpec.text, if_pos rfl, splitOnce_of_not_mem hslash]
      rfl
    · have hsplit := splitOnce_append_of_not_mem hslash [] p.text
      rw [List.append_assoc] at hsplit
      rw [EndSpec.text, if_neg hp]
      exact congrArg (Option.getD · _) hsplit
  have hgate : (if g.text = outsideName then GateRef.outside else .gate (String.ofList g.text)) =
      g := by
    cases g with
    | outside => rfl
    | gate id =>
      have hid : ¬(GateRef.gate id).text = outsideName := h.gate.2.1
      rw [if_neg hid, GateRef.text, String.ofList_toList]
  rw [EndSpec.parse, hsplit]
  dsimp only
  rw [h.gate.trim_text, if_neg h.gate.text_ne_nil, PathSpec.parse_text h.path, hgate]

/-- An end that was read can be read again, and the id of its gate is a part of the text. -/
theorem EndSpec.of_parse {link text : List Char} {e : EndSpec}
    (h : EndSpec.parse link text = .ok e) : e.Readable ∧ e.gate.text <:+: text := by
  obtain ⟨hslash, hinfix⟩ := of_getD_splitOnce '/' text []
  unfold EndSpec.parse at h
  generalize (splitOnce ['/'] text).getD (text, []) = parts at hslash hinfix h
  obtain ⟨id, path⟩ := parts
  dsimp only at hslash hinfix h
  split at h
  · cases h
  next hne =>
    cases hpath : PathSpec.parse path with
    | error e => simp [hpath] at h
    | ok p =>
      simp only [hpath, Except.ok.injEq] at h
      subst h
      have hfits := PathSpec.fits_parse hpath
      have hpart := (isInfix_trim id).trans hinfix
      by_cases hid : trim id = outsideName
      · rw [if_pos hid]
        rw [hid] at hpart
        exact ⟨⟨trivial, hfits⟩, hpart⟩
      · have htext : (GateRef.gate (String.ofList (trim id))).text = trim id := String.toList_ofList
        rw [if_neg hid]
        refine ⟨⟨?_, hfits⟩, htext.symm ▸ hpart⟩
        rw [GateRef.Readable, String.toList_ofList]
        exact ⟨hne, hid, trim_trim id, fun hc => hslash ((isInfix_trim id).subset hc)⟩

theorem EndSpec.not_mem_text {e : EndSpec} {c : Char} (hgate : c ∉ e.gate.text)
    (hc : isMark c = true) (hslash : c ≠ '/') : c ∉ e.text := by
  have hpath := e.path.not_mem_text hc hslash
  rw [EndSpec.text]
  split
  · exact hgate
  · simp [hgate, hpath, hslash]

theorem EndSpec.apart_text {e : EndSpec} (h : Apart '=' '>' e.gate.text) : Apart '=' '>' e.text := by
  rw [EndSpec.text]
  split
  · exact h
  · refine h.append (apart_of_not_mem ?_) (by simp)
    simpa using e.path.not_mem_text (c := '=') rfl (by decide)

namespace Value
open Grammar

theorem parse_trim {s : List Char} {v : Value} (h : Value.parse s = .ok v) :
    trim s ∉ placeholders ∧ Value.parse (trim s) = .ok v := by
  have hparse : Value.parse (trim s) = .ok v := by
    cases hp : Phrase.parse s with
    | error e =>
      rw [Value.parse, hp] at h
      cases h
    | ok p => rwa [Value.parse, Phrase.parse_congr (outline_trim (Phrase.trim_ne_nil hp))]
  have hword : ∀ body, outline body = .ok (none, body, .word) →
      ofPhrase (.word none body) = .error ⟨.placeholder, body⟩ → trim s ≠ body := by
    intro body ho hv hs
    rw [hs, Value.parse, Phrase.parse_word ho] at hparse
    cases hv.symm.trans hparse
  refine ⟨fun hs => ?_, hparse⟩
  simp only [placeholders, List.mem_cons, List.not_mem_nil, or_false] at hs
  obtain hs | hs | hs := hs
  · exact hword ['a', 'n', 'y'] rfl rfl hs
  · exact hword ['*'] rfl rfl hs
  · exact hword ['n', 'o', 'n', 'e'] rfl rfl hs

end Value

theorem parseLiteral_print {v : Value} (h : Value.parse v.print = .ok v) :
    parseLiteral v.print = .ok (some v) := by
  obtain ⟨hword, hparse⟩ := Value.parse_trim h
  rw [parseLiteral, if_neg hword, hparse]
  rfl

theorem Value.of_parseLiteral_print {v : Value} (h : parseLiteral v.print = .ok (some v)) :
    Value.parse v.print = .ok v := by
  unfold parseLiteral at h
  split at h
  · cases h
  · obtain ⟨w, hw, he⟩ := map_eq_ok.mp h
    cases he
    obtain ⟨p, hp, -⟩ := bind_eq_ok.mp hw
    rw [Value.parse, ← Grammar.Phrase.parse_congr (Grammar.outline_trim fun hs => ?_)]
    · exact hw
    · rw [hs] at hp
      exact Grammar.Phrase.trim_ne_nil hp rfl

/-- A link as it can be read: the source ends at the first arrow, and the sink at the first colon
after it. -/
structure LinkSpec.Readable (s : LinkSpec) : Prop where
  source : s.source.Readable
  sink : s.sink.Readable
  arrow : Apart '=' '>' s.source.gate.text
  colon : ':' ∉ s.sink.gate.text

theorem LinkSpec.readable_of_legible {s : LinkSpec} (hsource : s.source.Legible)
    (hsink : s.sink.Legible) : s.Readable where
  source := hsource.readable
  sink := hsink.readable
  arrow := apart_of_not_mem (hsource.gate.unmarked.not_mem rfl)
  colon := hsink.gate.unmarked.not_mem rfl

namespace LinkSpec
variable {s : LinkSpec}

theorem Readable.parse_text_eq (h : s.Readable) : LinkSpec.parse s.text =
    s.literal.elim (.ok s) fun v =>
      (fun w => { s with literal := w }) <$> (parseLiteral v.print).mapError .grammar := by
  obtain ⟨source, sink, literal⟩ := s
  have hcolon : ':' ∉ sink.text := EndSpec.not_mem_text h.colon rfl (by decide)
  have harrow := splitOnce_append_of_apart (c := '=') (d := '>') (by decide)
    (EndSpec.apart_text h.arrow) (sink.text ++ literal.elim [] (':' :: ·.print))
  have htext : LinkSpec.text ⟨source, sink, literal⟩ =
      source.text ++ ['=', '>'] ++ (sink.text ++ literal.elim [] (':' :: ·.print)) := by
    rw [LinkSpec.text, List.append_assoc]
  dsimp only at harrow
  rw [← htext] at harrow
  rw [LinkSpec.parse, harrow]
  simp only [Option.elim_some, bind, Except.bind]
  cases literal with
  | none =>
    simp only [Option.elim_none, List.append_nil, splitOnce_of_not_mem hcolon,
      EndSpec.parse_text h.source, EndSpec.parse_text h.sink]
    rfl
  | some v =>
    have hv := splitOnce_append_of_not_mem hcolon [] v.print
    rw [List.append_assoc, List.singleton_append] at hv
    simp only [Option.elim_some, hv]
    cases parseLiteral v.print with
    | error e => rfl
    | ok w =>
      simp only [EndSpec.parse_text h.source, EndSpec.parse_text h.sink]
      rfl

theorem Readable.parse_text (h : s.Readable)
    (hliteral : ∀ v, s.literal = some v → Value.parse v.print = .ok v) :
    LinkSpec.parse s.text = .ok s := by
  rw [h.parse_text_eq]
  obtain ⟨source, sink, literal⟩ := s
  cases literal with
  | none => rfl
  | some v =>
    rw [Option.elim_some, parseLiteral_print (hliteral v rfl)]
    rfl

theorem parse_text (hsource : s.source.Legible) (hsink : s.sink.Legible)
    (hliteral : ∀ v, s.literal = some v → Value.parse v.print = .ok v) :
    LinkSpec.parse s.text = .ok s :=
  (readable_of_legible hsource hsink).parse_text hliteral

/-- A link is read with the literal that it was printed with exactly if that reads back. -/
theorem parse_text_iff (hsource : s.source.Legible) (hsink : s.sink.Legible) :
    (∃ s', LinkSpec.parse s.text = .ok s' ∧ s'.literal = s.literal) ↔
      ∀ v, s.literal = some v → Value.parse v.print = .ok v := by
  constructor
  · intro h v hv
    obtain ⟨s', hs', hsame⟩ := h
    rw [(readable_of_legible hsource hsink).parse_text_eq, hv, Option.elim_some] at hs'
    obtain ⟨w, hparse, rfl⟩ := map_eq_ok.mp hs'
    have hw : w = some v := hsame.trans hv
    rw [mapError_eq_ok, hw] at hparse
    exact Value.of_parseLiteral_print hparse
  · intro h
    exact ⟨s, parse_text hsource hsink h, rfl⟩

theorem of_parse {text : List Char} (h : LinkSpec.parse text = .ok s) :
    ∃ source sink, Apart '=' '>' source ∧ ':' ∉ sink ∧ EndSpec.parse text source = .ok s.source ∧
      EndSpec.parse text sink = .ok s.sink ∧
      (s.literal = none ∨ ∃ literal, parseLiteral literal = .ok s.literal) := by
  have hends : ∀ {source sink : List Char} {literal : Option Value},
      (do return ⟨← EndSpec.parse text source, ← EndSpec.parse text sink, literal⟩ :
        Except Fault LinkSpec) = .ok s →
      EndSpec.parse text source = .ok s.source ∧ EndSpec.parse text sink = .ok s.sink ∧
        s.literal = literal := by
    intro source sink literal h
    obtain ⟨e, he, h⟩ := bind_eq_ok.mp h
    obtain ⟨e', he', h⟩ := bind_eq_ok.mp h
    cases h
    exact ⟨he, he', rfl⟩
  obtain ⟨⟨source, rest⟩, harrow, h⟩ := bind_eq_ok.mp h
  have hapart : Apart '=' '>' source := by
    cases hs : splitOnce ['=', '>'] text with
    | none => simp [hs] at harrow
    | some r =>
      rw [hs] at harrow
      cases harrow
      exact apart_of_splitOnce hs
  dsimp only at h
  split at h
  next hnone =>
    obtain ⟨hsource, hsink, hliteral⟩ := hends h
    exact ⟨_, _, hapart, not_mem_of_splitOnce_eq_none hnone, hsource, hsink, .inl hliteral⟩
  next hsome =>
    split at h
    · cases h
    next hparse =>
      obtain ⟨hsource, hsink, hliteral⟩ := hends h
      exact ⟨_, _, hapart, not_mem_of_splitOnce hsome, hsource, hsink,
        .inr ⟨_, hparse.trans (congrArg _ hliteral.symm)⟩⟩

theorem readable_of_parse {text : List Char} (h : LinkSpec.parse text = .ok s) : s.Readable := by
  obtain ⟨source, sink, harrow, hcolon, hsource, hsink, -⟩ := of_parse h
  obtain ⟨hreadable, hpart⟩ := EndSpec.of_parse hsource
  obtain ⟨hreadable', hpart'⟩ := EndSpec.of_parse hsink
  exact ⟨hreadable, hreadable', harrow.of_infix hpart, fun hc => hcolon (hpart'.subset hc)⟩

theorem literal_of_parse {text : List Char} (h : LinkSpec.parse text = .ok s) :
    s.literal = none ∨ ∃ literal, parseLiteral literal = .ok s.literal := by
  obtain ⟨source, sink, -, -, -, -, hliteral⟩ := of_parse h
  exact hliteral

end LinkSpec

/-- What was read reads back. A link does where its literal does by itself, whatever the ids of its
gates are; a path always does, so that its text stands for all texts of the path. -/
theorem links_and_paths_read_back :
    (∀ text s, LinkSpec.parse text = .ok s →
      (∀ v, s.literal = some v → Value.parse v.print = .ok v) → LinkSpec.parse s.text = .ok s) ∧
    (∀ p : PathSpec, p.Fits → PathSpec.parse p.text = .ok p) ∧
    ∀ text p, PathSpec.parse text = .ok p → PathSpec.parse p.text = .ok p ∧
      ∀ text' p', PathSpec.parse text' = .ok p' → (p'.text = p.text ↔ p' = p) := by
  refine ⟨fun text s h hliteral => (LinkSpec.readable_of_parse h).parse_text hliteral,
    fun p => PathSpec.parse_text, fun text p h => ?_⟩
  have hagain : ∀ {text p}, PathSpec.parse text = .ok p → PathSpec.parse p.text = .ok p :=
    fun h => PathSpec.parse_text (PathSpec.fits_parse h)
  refine ⟨hagain h, fun text' p' h' => ⟨fun hsame => ?_, fun hp => hp ▸ rfl⟩⟩
  have hp' := hagain h'
  rw [hsame, hagain h] at hp'
  exact (Except.ok.inj hp').symm

def LinkSpec.marked : LinkSpec :=
  ⟨⟨.gate "a:=b=", [.index 1, .next]⟩, ⟨.gate "b=>c", []⟩,
    some (.collection none [.high, .bit (some "x") false])⟩

theorem LinkSpec.parse_marked :
    LinkSpec.parse " a:=b= / +01 /* => b=>c // : [1, x:0]".toList = .ok marked := by
  have harrow : splitOnce ['=', '>'] " a:=b= / +01 /* => b=>c // : [1, x:0]".toList =
      some (" a:=b= / +01 /* ".toList, " b=>c // : [1, x:0]".toList) := by decide
  have hcolon : splitOnce [':'] " b=>c // : [1, x:0]".toList =
      some (" b=>c // ".toList, " [1, x:0]".toList) := by decide
  have hliteral : parseLiteral " [1, x:0]".toList = .ok marked.literal := by cbv
  simp only [LinkSpec.parse, harrow, Option.elim_some, bind, Except.bind, hcolon, hliteral]
  rfl

theorem links_and_paths_read_back_marked :
    LinkSpec.parse " a:=b= / +01 /* => b=>c // : [1, x:0]".toList = .ok .marked ∧
    LinkSpec.marked.text = "a:=b=/1/*=>b=>c:[1, x: 0]".toList ∧
    (∀ v, LinkSpec.marked.literal = some v → Value.parse v.print = .ok v) ∧
    LinkSpec.parse LinkSpec.marked.text = .ok .marked ∧
    PathSpec.Fits [.index 1, .next] ∧ PathSpec.parse ['1', '/', '*'] = .ok [.index 1, .next] ∧
    PathSpec.parse " +01 /* ".toList = .ok [.index 1, .next] ∧
    PathSpec.text [.index 1, .next] = ['1', '/', '*'] := by
  obtain ⟨hlinks, hpaths, hnormal⟩ := links_and_paths_read_back
  have hliteral : ∀ v, LinkSpec.marked.literal = some v → Value.parse v.print = .ok v := by
    intro v hv
    cases hv
    cbv
  have hspaced : PathSpec.parse " +01 /* ".toList = .ok [.index 1, .next] := rfl
  have hfits := PathSpec.fits_parse hspaced
  have hsame := (hnormal _ _ hspaced).2 ['1', '/', '*'] [.index 1, .next] (hpaths _ hfits)
  exact ⟨LinkSpec.parse_marked, by decide, hliteral,
    hlinks _ _ LinkSpec.parse_marked hliteral, hfits, hpaths _ hfits, hspaced, hsame.mpr rfl⟩

end TickCircuit
