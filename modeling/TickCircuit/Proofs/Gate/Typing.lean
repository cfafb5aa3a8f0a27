import TickCircuit.Proofs.Gate.Influence
import TickCircuit.Proofs.Gate.Stable
import TickCircuit.Proofs.Interface.Accepts
/-!
Types of links between function gates. The ports of a function gate keep their types, so what was
checked when a link was made stays true, and what it carries fits the source as well. Main
statement: a gate that takes its input from sources of concrete types can always read it
(`read_of_concrete`).
-/
namespace TickCircuit
namespace Circuit
variable {c c' : Circuit Gate}

def fixed? (c : Circuit Gate) (d : Direction) : Node → Option Interface
  | .gate id => (c.gate? id).bind (·.fixed? d)
  | _ => none

/-- A link has the type of its source, which what it carries fits and the sink admits, as far as
its ends are at function gates. -/
structure Suits (c : Circuit Gate) (l : Link) : Prop where
  source : ∀ {i}, c.fixed? .output l.source.node = some i →
    i.childAt? l.source.path = some l.data ∧
      ∀ v, l.current = some v ∨ l.last = some v → l.data.accepts v = true
  sink : ∀ {i}, c.fixed? .input l.sink.node = some i →
    ∃ j, i.childAt? l.sink.path = some j ∧ j.admits l.data = true

def Typed (c : Circuit Gate) : Prop := ∀ id l, c.links.get? id = some l → c.Suits l

theorem fixed?_gate {d : Direction} {id : GateId} {i : Interface}
    (h : c.fixed? d (.gate id) = some i) : ∃ face name f,
      c.gate? id = some (.function face name f) ∧
        ((Gate.function face name f).port d).interface = i := by
  obtain ⟨g, hg, hi⟩ := Option.bind_eq_some_iff.mp h
  cases g with
  | function face name f => exact ⟨face, name, f, hg, Option.some.inj hi⟩
  | circuit face c => cases hi

theorem interface?_of_fixed? {d : Direction} {n : Node} {i : Interface}
    (h : c.fixed? d n = some i) : c.interface? d n = some i := by
  cases n with
  | gate id =>
    obtain ⟨face, name, f, hg, rfl⟩ := fixed?_gate h
    rw [interface?, port?, hg]
    rfl
  | boundary => cases h
  | host => cases h

theorem fixed?_ticked (c : Circuit Gate) (face : Face) (outer : LinkTable) (d : Direction)
    (n : Node) : (c.ticked face outer).fixed? d n = c.fixed? d n := by
  cases n with
  | gate id =>
    rw [fixed?, fixed?, gate?_ticked]
    cases c.gate? id with
    | none => rfl
    | some g => exact g.fixed?_update c.links d
  | boundary => rfl
  | host => rfl

theorem fixed?_modifyGate {id : GateId} {g g' : Gate} (hg : c.gate? id = some g)
    (h : ∀ d, g'.fixed? d = g.fixed? d) (d : Direction) (n : Node) :
    (c.modifyGate id fun _ => g').fixed? d n = c.fixed? d n := by
  cases n with
  | gate j =>
    rw [fixed?, fixed?, gate?, modifyGate, Entries.get?_modify]
    split
    next hj =>
      subst hj
      rw [← gate?, hg]
      exact h d
    next => rfl
  | boundary => rfl
  | host => rfl

theorem Refaced.fixed? (h : c.Refaced c') {d : Direction} {n : Node} {i : Interface}
    (hi : c'.fixed? d n = some i) : c.fixed? d n = some i := by
  cases n with
  | gate id =>
    obtain ⟨face', name, f, hg', rfl⟩ := fixed?_gate hi
    have hport : c'.port? d (.gate id) = some ((Gate.function face' name f).port d) := by
      rw [port?, hg']
      rfl
    obtain ⟨q, hq, hqi⟩ := h.port hport
    obtain ⟨g, k, hg, hk⟩ := h.gate hg'
    rw [port?, hg, Option.map_some, Option.some.injEq] at hq
    rw [Circuit.fixed?, hg, hqi, ← hq]
    cases g with
    | function face name f => rfl
    | circuit face c => cases hk
  | boundary => cases hi
  | host => cases hi

theorem Enlarged.fixed? {more : List (GateId × Gate)} (h : c.Wired) (he : c.Enlarged c' more)
    {id : LinkId} {l : Link} (hl : c.links.get? id = some l) (d : Direction) :
    c'.fixed? d (l.endAt d).node = c.fixed? d (l.endAt d).node := by
  have hend : c.end? d id = some (l.endAt d) := by
    rw [end?, hl]
    rfl
  obtain hn | ⟨gid, hgid, hn⟩ := (port?_isSome c d _).mp (h.ends hend)
  · rw [hn]
    rfl
  · obtain ⟨g, hg⟩ := Entries.mem_keys_iff.mp hgid
    rw [hn, Circuit.fixed?, Circuit.fixed?, gate?, gate?, he.gates, Entries.get?_append, hg]
    rfl

theorem Suits.of_fixed {l : Link} (h : c.Suits l)
    (hfixed : ∀ {d i}, c'.fixed? d (l.endAt d).node = some i →
      c.fixed? d (l.endAt d).node = some i) : c'.Suits l where
  source hi := h.source (hfixed (d := .output) hi)
  sink hi := h.sink (hfixed (d := .input) hi)

theorem Joins.suits (h : c.Wired) {start end_ : LinkEnd} {literal : Option Value} {l : Link}
    (hj : Joins c start end_ literal l) : c.Suits l := by
  obtain ⟨hsource, t, hsink, hadmits⟩ := hj.fits h
  refine ⟨fun {i} hi => ⟨?_, fun v hv => ?_⟩, fun {i} hi => ⟨t, ?_, hadmits⟩⟩
  · rwa [typeAt?, interface?_of_fixed? hi] at hsource
  · rw [hj.current, hj.last] at hv
    exact hj.accepts v (hv.elim id id)
  · rwa [typeAt?, interface?_of_fixed? hi] at hsink

theorem Suits.settled {l : Link} (h : c.Suits l) (face : Face) (outer : LinkTable) :
    (c.ticked face outer).Suits (c.settled face outer l) where
  source {i} hi := by
    have hi : c.fixed? .output l.source.node = some i := by rwa [fixed?_ticked] at hi
    obtain ⟨htype, hvalues⟩ := h.source hi
    refine ⟨htype, fun v hv => accepts_settled ?_ (fun hn => ?_) hvalues hv⟩
    · rw [typeAt?, interface?_of_fixed? hi]
      exact htype
    · rw [hn] at hi
      cases hi
  sink {i} hi := by
    rw [fixed?_ticked] at hi
    exact h.sink hi

theorem stable_typed : Stable Typed where
  empty registry id l hl := by cases hl
  withLink {c _ _ _ l} hc hj h id m hm := by
    have hrefaced := hc.wired.refaced_withLink hj
    rw [hc.wired.links_withLink, LinkTable.get?, Entries.get?_append] at hm
    obtain hm | ⟨-, hm⟩ := Option.or_eq_some_iff.mp hm
    · exact (h id m hm).of_fixed hrefaced.fixed?
    · have hmem := Entries.mem_of_get? hm
      cases List.mem_singleton.mp hmem
      exact (hj.suits hc.wired).of_fixed hrefaced.fixed?
  deleteLink {c} j hc h id l hl := by
    rw [links_deleteLink, LinkTable.get?, LinkTable.erase,
      Entries.get?_erase hc.wired.links_nodup] at hl
    split at hl
    · cases hl
    · exact (h id l hl).of_fixed (hc.wired.refaced_deleteLink j).fixed?
  enlarged {c c' _} hc he h id l hl := by
    rw [LinkTable.get?, he.links] at hl
    exact (h id l hl).of_fixed fun {d i} hi => by rwa [he.fixed? hc hl] at hi
  withoutGate j hc h id l hl := (h id l hl).of_fixed (hc.refaced_withoutGate j).fixed?
  replaceGate hg hfixed h id l hl := (h id l hl).of_fixed fun {d i} hi => by
    rwa [fixed?_modifyGate hg hfixed] at hi
  around input output registry h id l hl := (h id l hl).of_fixed fun {d i} hi => by
    cases d <;> exact hi
  ticked {c} face outer _ h id l' hl' := by
    rw [get?_ticked] at hl'
    obtain ⟨l, hl, rfl⟩ := Option.map_eq_some_iff.mp hl'
    exact (h id l hl).settled face outer

/-- Where the sources of a function gate are known down to their bits, what they have given out can
be read. -/
theorem Typed.read (h : c.Typed) (hc : c.Wired) {gid : GateId} {face : Face} {name : String}
    {f : Option Transform} (hg : c.gate? gid = some (.function face name f))
    (hfull : face.input.interface.Full)
    (hsources : ∀ id l, c.links.get? id = some l → l.sink.node = .gate gid →
      ∃ i, c.fixed? .output l.source.node = some i ∧ i.Concrete) :
    ∃ v, face.input.read c.links = .ok v := by
  have hport : c.port? .input (.gate gid) = some face.input := by
    rw [port?, hg]
    rfl
  have hi : c.fixed? .input (.gate gid) = some face.input.interface := by
    rw [Circuit.fixed?, hg]
    rfl
  cases hread : face.input.read c.links with
  | ok v => exact ⟨v, rfl⟩
  | error e =>
    exfalso
    obtain ⟨path, q, v, hq, hv, hno, -⟩ := Port.of_read_error hread
    obtain ⟨id, hid, l, hl, hlast⟩ := Port.of_carried hv
    have hat : id ∈ face.input.linksAt path := by
      rw [Port.linksAt, hq]
      exact hid
    obtain ⟨l', hl', hsink⟩ := Option.map_eq_some_iff.mp ((hc.mem_linksAt_iff hport).mp hat)
    have hll := hl.symm.trans hl'
    cases hll
    have hsink : l.sink = ⟨.gate gid, path⟩ := hsink
    have hnode : l.sink.node = .gate gid := by rw [hsink]
    obtain ⟨i, hfixed, hconcrete⟩ := hsources id l hl hnode
    obtain ⟨hsource, haccepts⟩ := (h id l hl).source hfixed
    obtain ⟨j, hj, hadmits⟩ := (h id l hl).sink (by rw [hnode]; exact hi)
    have hplace := (hc.shaped hport).childAt hq
    rw [hsink] at hj
    have hjq := Option.some.inj (hj.symm.trans hplace)
    rw [hjq] at hj hadmits
    rw [Interface.accepts_of_admits (hfull.childAt hj) (hconcrete.childAt hsource) hadmits
      (haccepts v (.inr hlast))] at hno
    cases hno

end Circuit

/-- What lasts of a circuit that runs, as far as one of its function gates is concerned. -/
structure Circuit.Attends (c : Circuit Gate) (gid : GateId) (face : Face) (name : String)
    (c' : Circuit Gate) : Prop where
  alike : c.Alike c'
  fixed : ∀ d n, c'.fixed? d n = c.fixed? d n
  typed : c'.Typed
  gate : ∃ face' f', c'.gate? gid = some (.function face' name f') ∧ face'.input = face.input

theorem Circuit.lasting_attends (c : Circuit Gate) (gid : GateId) (face : Face) (name : String) :
    Lasting (c.Attends gid face name) where
  ticked {c'} own t hs h := by
    obtain ⟨face', f', hg', hinput⟩ := h.gate
    obtain ⟨face₁, f₁, hupdate, hinput₁, -⟩ := Gate.update_function face' name f' c'.links
    refine ⟨h.alike.trans (hs.ticked own t).2.1, fun d n => ?_,
      stable_typed.ticked own t hs h.typed, face₁, f₁, ?_, hinput₁.trans hinput⟩
    · rw [fixed?_ticked, h.fixed]
    · rw [gate?_ticked, hg', Option.map_some, hupdate]
  clicked {c' id g g' _ _} hs hg hclick hs' hface h := by
    have hfixed := Gate.fixed?_editAt hclick
    refine ⟨h.alike.trans (hs.alike_replaceGate hg hface).1, fun d n => ?_,
      stable_typed.replaceGate hg hfixed h.typed, ?_⟩
    · rw [fixed?_modifyGate hg hfixed, h.fixed]
    · obtain ⟨face', f', hg', hinput⟩ := h.gate
      by_cases hid : id = gid
      · rw [hid, hg'] at hg
        cases hg
        rw [Gate.editAt_click hclick, gate?, modifyGate, Entries.get?_modify, if_pos hid, ← gate?,
          hg']
        exact ⟨face', _, rfl, hinput⟩
      · rw [gate?, modifyGate, Entries.get?_modify, if_neg hid]
        exact ⟨face', f', hg', hinput⟩

/-- A function gate with no `none` in its input type, all of whose links come from function gates
that give out bits and collections of them. However its circuit runs, it can read its input, or
finds nothing there. -/
theorem read_of_concrete {own : Face} {c : Circuit Gate} (hc : (Gate.circuit own c).Reachable)
    {gid : GateId} {face : Face} {name : String} {f : Option Transform}
    (hg : c.gate? gid = some (.function face name f)) (hfull : face.input.interface.Full)
    (hsources : ∀ id l, c.links.get? id = some l → l.sink.node = .gate gid →
      ∃ sid face' name' f', l.source.node = .gate sid ∧
        c.gate? sid = some (.function face' name' f') ∧ face'.output.interface.Concrete)
    {g : Gate} (ran : (Gate.circuit own c).Ticked g) :
    ∃ own' c' face' f', g = .circuit own' c' ∧ c'.gate? gid = some (.function face' name f') ∧
      ∀ t, t.stale = c'.links.stale → ∃ v, face'.input.read t = .ok v := by
  obtain ⟨-, -, hs⟩ := Gate.sound_circuit_iff.mp hc.sound
  obtain ⟨htyped, -⟩ := Gate.inside_circuit_iff.mp (Circuit.stable_typed.reachable hc)
  obtain ⟨own', c', rfl, hs', h, -, -⟩ := ran.lasts (c.lasting_attends gid face name) hs
    ⟨.refl c, fun _ _ => rfl, htyped, face, f, hg, rfl⟩
  obtain ⟨face', f', hg', hinput⟩ := h.gate
  refine ⟨own', c', face', f', rfl, hg', fun t ht => ?_⟩
  rw [← Port.read_stale, ht, Port.read_stale]
  refine h.typed.read hs'.wired hg' (hinput ▸ hfull) fun id l hl hsink => ?_
  obtain ⟨l₀, hl₀, hblank⟩ := h.alike.get?_link hl
  have hsource : l₀.source = l.source := Link.endAt_of_blank hblank .output
  have hend : l₀.sink = l.sink := Link.endAt_of_blank hblank .input
  obtain ⟨sid, face₀, name₀, f₀, hnode, hgate, hconcrete⟩ :=
    hsources id l₀ hl₀ (by rw [hend, hsink])
  refine ⟨face₀.output.interface, ?_, hconcrete⟩
  rw [h.fixed, ← hsource, hnode, Circuit.fixed?, hgate]
  rfl

/-- In the chain of inverters the second one can read whatever comes. -/
theorem read_of_concrete_chain : ∃ face,
    Circuit.chain.gate? 1 = some (.function face "not" (Builtin.find? "not")) ∧
    ∃ own' c' face' f', (Gate.circuit (.new "chain" ⟨default, default⟩) .chain).run [.empty] =
        .circuit own' c' ∧ c'.gate? 1 = some (.function face' "not" f') ∧
      ∀ t, t.stale = c'.links.stale → ∃ v, face'.input.read t = .ok v := by
  refine ⟨_, rfl, read_of_concrete Gate.reachable_chain rfl (.bit none) ?_
    (Gate.Ticked.refl.run [.empty])⟩
  intro id l hl hsink
  have hnodes := List.mem_map_of_mem (f := fun e => (e.2.source.node, e.2.sink.node))
    (Entries.mem_of_get? hl)
  rw [Circuit.nodes_chain, hsink] at hnodes
  have hsource : l.source.node = .gate 0 := by simpa using hnodes
  exact ⟨0, _, _, _, hsource, rfl, .bit none⟩

end TickCircuit
