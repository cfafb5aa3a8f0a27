import TickCircuit.Proofs.Gate.Driven
import TickCircuit.Proofs.Registry.RoundTrip
/-!
Saving a circuit that ran. What is on a link may have been put together from values that were read
apart from each other, so that a label from the root of one text is below the root of another one.
Main statement: a link that is saved reads back with its last value exactly if no label below the
root of that value has a comma (`saved_links_read_back`).
-/
namespace TickCircuit
open Text Grammar

/-- A circuit was inserted, with no transforms but the built-in ones, and then ran on inputs that
were read. Each of its links is saved as a text, which reads back with the last value of the link
exactly if no label below the root of that value has a comma. -/
theorem saved_links_read_back {registry : Registry} (plain : registry.natives = []) {name : String}
    {d : Description} {offset : Position} {start : Gate} {ids : Entries String GateId}
    (made : (Gate.ofCircuit name (.empty registry)).insert d offset = (start, .ok ids))
    {face : Face} {c : Circuit Gate} (ran : start.Fed (.circuit face c)) :
    c.describeAll.links.length = c.links.entries.length ∧
    ∀ (k : Nat) (id : LinkId) (l : Link), c.links.entries[k]? = some (id, l) →
      (∀ v, l.last = some v → v.Small) →
      ∃ text, c.describeAll.links[k]? = some text ∧
        ((∃ spec, LinkSpec.parse text.toList = .ok spec ∧ spec.literal = l.last) ↔
          ∀ v, l.last = some v → ∀ label ∈ v.innerLabels, ',' ∉ label.toList) := by
  have hstart := Gate.spelled_of_insert plain made
  obtain ⟨face₂, c₁, c₂, ls, rfl, hfilled, hr, hc₂, -⟩ := Gate.filled_of_insert made
  have hresolves := Gate.resolves_resolve hr
  obtain ⟨_, _, he, hkeeps, -, -⟩ := ran.ticked.keeps hc₂ (hfilled.carries hresolves)
  cases he
  have hc := Gate.spelled_circuit_iff.mp (ran.spelled hc₂ hstart)
  -- the links have the ends that they were made with
  obtain ⟨hlinks, hnames⟩ := hresolves.kept hkeeps
  have hdescribe := Circuit.describeAll_eq hkeeps.sound.wired (hfilled.gateIds hnames)
  rw [hdescribe]
  refine ⟨List.length_map _, fun k id l hk hsmall => ?_⟩
  have hl := Entries.get?_of_mem hkeeps.sound.wired.links_nodup (List.mem_of_getElem? hk)
  have hfits := hfilled.fits_path hlinks hl
  have hsource := l.source.legible_spec (hfits .output)
  have hsink := l.sink.legible_spec (hfits .input)
  refine ⟨String.ofList l.spec.text, by rw [List.getElem?_map, hk]; rfl, ?_⟩
  rw [String.toList_ofList]
  refine (LinkSpec.parse_text_iff hsource hsink).trans (forall₂_congr fun v hv => ?_)
  exact (hc.links id l hl v (.inr hv)).parse_print (hsmall v hv)

def Registry.pairs : Registry :=
  Registry.empty.insert "pair"
    (.ofTransform ⟨.copies 2 (.bit none), .copies 2 (.bit none)⟩ "buffer")

/-- A gate feeds the first bit of its pair to itself, from a first value on that has a label, and
passes the pair on to another gate. -/
def Description.pairs (label : String) : Description :=
  ⟨[⟨"a", "pair", none⟩, ⟨"b", "pair", none⟩], ["a/0=>a/0:" ++ label ++ ": 1", "a=>b"]⟩

def Port.pair (d : Direction) (whole first : List LinkId) : Port :=
  ⟨d, .copies 2 (.bit none), whole, [⟨d, .bit none, first, []⟩, ⟨d, .bit none, [], []⟩]⟩

def Gate.pair (input output : Port) : Gate :=
  .function ⟨"pair", Position.zero.add .zero, "pair", input, output, none⟩ "buffer"
    (Registry.pairs.transform? "buffer")

def Circuit.pairs (label : String) (v : Option Value) : Circuit Gate where
  gates := [(0, .pair (.pair .input [] [0]) (.pair .output [1] [0])),
    (1, .pair (.pair .input [1] []) (.pair .output [] []))]
  links := ⟨[
    (0, .seeded ⟨.gate 0, [0]⟩ ⟨.gate 0, [0]⟩ (.bit none) (some (.bit (some label) true))),
    (1, .seeded ⟨.gate 0, []⟩ ⟨.gate 1, []⟩ (.copies 2 (.bit none)) v)], 2⟩
  innerInput := .new .output (.none none)
  innerOutput := .new .input (.none none)
  registry := .pairs
  nextGate := 2

def Face.pairs : Face :=
  { Face.new "scratch" ⟨default, default⟩ with
    input := .new .input (.none none), output := .new .output (.none none) }

theorem specs_pairs {label : String} (h : IsLabel true label.toList) :
    (Description.pairs label).specs = .ok [
      ⟨⟨.gate "a", [.index 0]⟩, ⟨.gate "a", [.index 0]⟩, some (.bit (some label) true)⟩,
      ⟨⟨.gate "a", []⟩, ⟨.gate "b", []⟩, none⟩] := by
  have hbit : EndSpec.Legible ⟨.gate "a", [.index 0]⟩ := by
    refine ⟨⟨by decide, by decide, unmarked_of_any rfl⟩, fun n hn => ?_⟩
    cases List.mem_singleton.mp hn
    decide
  have hloop := LinkSpec.parse_text (s := ⟨_, _, some (.bit (some label) true)⟩) hbit hbit
    fun v hv => by
      cases hv
      have hlabelled : (Value.bit (some label) true).WellLabelled true := .bit fun l hl => by
        cases hl
        exact h
      exact (Value.reads hlabelled).parse_eq .bit
  have htext : ("a/0=>a/0:" ++ label ++ ": 1").toList = LinkSpec.text
      ⟨⟨.gate "a", [.index 0]⟩, ⟨.gate "a", [.index 0]⟩, some (.bit (some label) true)⟩ := by
    have hprint : (Value.bit (some label) true).print = label.toList ++ ": 1".toList :=
      List.append_assoc label.toList [':', ' '] ['1']
    rw [LinkSpec.text, Option.elim_some, hprint, String.toList_append, String.toList_append,
      List.append_assoc]
    rfl
  have hpair : LinkSpec.parse "a=>b".toList =
      .ok ⟨⟨.gate "a", []⟩, ⟨.gate "b", []⟩, none⟩ := rfl
  rw [← htext] at hloop
  simp only [Description.specs, Description.pairs, List.mapM_cons, List.mapM_nil, hloop, hpair]
  rfl

theorem insert_pairs {label : String} (h : IsLabel true label.toList) :
    (Gate.ofCircuit "scratch" (.empty .pairs)).insert (.pairs label) .zero =
      (.circuit .pairs (.pairs label none), .ok [("a", 0), ("b", 1)]) := by
  have hpair := Gate.ofTemplate_transform .pairs "pair" rfl rfl
  have hgates : (Circuit.empty .pairs).insertGates (Gate.ofTemplate .pairs) .zero
      ⟨[], [], .new .output default, .new .input default⟩ (Description.pairs label).gates =
      (⟨[(0, .pair (.pair .input [] []) (.pair .output [] [])),
          (1, .pair (.pair .input [] []) (.pair .output [] []))],
        .empty, .new .output default, .new .input default, .pairs, 2⟩,
        ⟨[("a", 0), ("b", 1)], [], .new .output default, .new .input default⟩, .ok ()) := by
    simp only [Description.pairs, Circuit.insertGates, hpair]
    rfl
  have hinsert : (Circuit.empty .pairs).insert (Gate.ofTemplate .pairs) (.pairs label) .zero =
      ({ Circuit.pairs label none with
          innerInput := .new .output default, innerOutput := .new .input default },
        .ok ⟨[("a", 0), ("b", 1)], [0, 1], .new .output default, .new .input default⟩) := by
    simp only [Circuit.insert, Circuit.insertParts, specs_pairs h]
    simp only [Circuit.empty] at hgates ⊢
    rw [hgates]
    rfl
  simp only [Circuit.empty] at hinsert
  simp only [Gate.ofCircuit, Gate.insert, Circuit.empty, hinsert]
  rfl

def Value.pair (label : String) : Value := .collection none [.bit (some label) true, .low]

theorem Value.small_pair (label : String) : (Value.pair label).Small := by
  refine .collection (fun v hv => ?_) (show 2 ≤ maxCount by decide) (show 2 ≤ maxNodes by decide)
  simp only [List.mem_cons, List.not_mem_nil, or_false] at hv
  obtain rfl | rfl := hv
  · exact .bit
  · exact .bit

theorem Circuit.small_pairs (label : String) :
    ∀ e ∈ (pairs label (some (.pair label))).links.entries, ∀ v, e.2.last = some v → v.Small := by
  intro e he v hv
  simp only [pairs, List.mem_cons, List.not_mem_nil, or_false] at he
  obtain rfl | rfl := he
  · cases hv
    exact .bit
  · cases hv
    exact Value.small_pair label

theorem simulate_pairs (label : String) : ∃ s face,
    Simulation.new (.circuit .pairs (.pairs label none)) = .ok s ∧
      s.tick.root = .circuit face (.pairs label (some (.pair label))) := ⟨_, _, rfl, rfl⟩

theorem fed_pairs {label : String} (h : IsLabel true label.toList) {s : Simulation}
    (hs : Simulation.new (.circuit .pairs (.pairs label none)) = .ok s) :
    (Gate.circuit .pairs (.pairs label none)).Fed s.tick.root := by
  have hsound := ((Gate.Reachable.circuit "scratch" .pairs).sound.insert (.pairs label) .zero).1
  rw [insert_pairs h] at hsound
  have hfree : (Gate.circuit .pairs (.pairs label none)).Unlinked := by
    intro d path
    cases d <;> exact Port.linksAt_new _ _ _
  exact (Simulation.Runs.fed hsound hfree hs (.tick .refl)).2

/-- A label without a comma can be read in its new place. -/
theorem saved_links_read_back_pairs : ∃ start ids s face c,
    (Gate.ofCircuit "scratch" (.empty .pairs)).insert (.pairs "x") .zero = (start, .ok ids) ∧
    Simulation.new start = .ok s ∧ s.tick.root = .circuit face c ∧ start.Fed (.circuit face c) ∧
    ∃ text spec, c.describeAll.links[1]? = some text ∧
      LinkSpec.parse text.toList = .ok spec ∧ spec.literal = some (.pair "x") := by
  have hlabel : IsLabel true "x".toList :=
    ⟨by decide, by decide, by simp [isBracket], by decide, fun h => by cases h⟩
  obtain ⟨s, face, hs, htick⟩ := simulate_pairs "x"
  have hfed := fed_pairs hlabel hs
  rw [htick] at hfed
  obtain ⟨-, hlinks⟩ := saved_links_read_back rfl (insert_pairs hlabel) hfed
  obtain ⟨text, htext, hiff⟩ := hlinks 1 1 _ rfl fun v hv => by
    cases hv
    exact Value.small_pair "x"
  obtain ⟨spec, hspec, hliteral⟩ := hiff.mpr fun v hv label hl => by
    cases hv
    cases List.mem_singleton.mp hl
    decide
  exact ⟨_, _, s, face, _, insert_pairs hlabel, hs, htick, hfed, text, spec, htext, hspec,
    hliteral⟩

theorem Registry.ofText_pairs : Registry.ofText Registry.pairs.toText = .ok .pairs := by
  have hpair : (Interface.copies 2 (.bit none)).WellLabelled true := by
    refine .collection (.none true) fun c hc => ?_
    cases List.eq_of_mem_replicate hc
    exact .bit (.none false)
  have hloaded : Registry.pairs.Loaded := {
    natives := rfl
    nodup := by decide
    body := List.forall_mem_singleton.mpr ⟨_, rfl⟩
    templates := List.forall_mem_singleton.mpr ⟨⟨hpair, hpair⟩, nofun⟩ }
  have hlimits : (Interface.copies 2 (.bit none)).Bounded :=
    Interface.bounded_copies.mpr ⟨.bit, by decide, by decide⟩
  have hbounded : Registry.pairs.Bounded := List.forall_mem_singleton.mpr ⟨hlimits, hlimits⟩
  exact hloaded.ofText_eq_ok ((hloaded.loads nofun).eq_ok hbounded)

/-- With a label that has a comma, the pair on the second link is saved and cannot be read. -/
theorem saved_link_refused :
    Registry.ofText Registry.pairs.toText = .ok .pairs ∧
    Description.ofText (Description.pairs "x,y").toText = .ok (.pairs "x,y") ∧
    ∃ start ids s face c,
      (Gate.ofCircuit "scratch" (.empty .pairs)).insert (.pairs "x,y") .zero = (start, .ok ids) ∧
      Simulation.new start = .ok s ∧ s.tick.root = .circuit face c ∧
      (∀ e ∈ c.links.entries, ∀ v, e.2.last = some v → v.Small) ∧
      ∃ l text, c.links.entries[1]? = some (1, l) ∧ c.describeAll.links[1]? = some text ∧
        ¬∃ spec, LinkSpec.parse text.toList = .ok spec ∧ spec.literal = l.last := by
  have hlabel : IsLabel true "x,y".toList :=
    ⟨by decide, by decide, by simp [isBracket], by decide, fun h => by cases h⟩
  obtain ⟨s, face, hs, htick⟩ := simulate_pairs "x,y"
  have hspelled : (Value.pair "x,y").Spelled := by
    intro l hl
    cases List.mem_singleton.mp hl
    exact hlabel
  have hdescription : Description.ofText (Description.pairs "x,y").toText = .ok (.pairs "x,y") :=
    Description.ofText_saved fun x hx => by cases hx
  have hlegible : ∀ id, (Endpoint.spec ⟨.gate id, []⟩).Legible := fun id =>
    Endpoint.legible_spec ⟨.gate id, []⟩ fun n hn => by cases hn
  refine ⟨Registry.ofText_pairs, hdescription, _, _, s, face, _, insert_pairs hlabel, hs, htick,
    Circuit.small_pairs "x,y",
    .seeded ⟨.gate 0, []⟩ ⟨.gate 1, []⟩ (.copies 2 (.bit none)) (some (.pair "x,y")), _, rfl, rfl,
    fun h => ?_⟩
  have hreads := (LinkSpec.parse_text_iff (hlegible 0) (hlegible 1)
    (s := ⟨_, _, some (.pair "x,y")⟩)).mp h
  have hno := (hspelled.parse_print (Value.small_pair "x,y")).mp (hreads _ rfl) "x,y"
    List.mem_cons_self
  exact hno (by decide)

end TickCircuit
