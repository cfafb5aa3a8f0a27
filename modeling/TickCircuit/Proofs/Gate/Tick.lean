import TickCircuit.Gate.Tick
import TickCircuit.Proofs.Circuit.Wiring
import TickCircuit.Proofs.Port.Signal
/-!
One update of a gate, as a function of what it reads. What a gate gives out is a value, its
`emission`, which its output port spreads over the links. Main statements: gate and emission depend
on the last values alone (`update_fst_congr`, `emission_congr`), and nothing else is written
(`update_snd`).
-/
namespace TickCircuit

/-- What the output of a gate carries of what it is given. -/
def Face.accepted (face : Face) (v : Option Value) : Option Value :=
  v.filter face.output.interface.accepts

namespace Circuit

/-- The first step of a tick: the outer input goes to the inner one. -/
def pushed (c : Circuit Gate) (face : Face) (outer : LinkTable) : LinkTable × Except Fault Unit :=
  if c.innerInput.interface.isNone then (c.links, .ok ())
  else Gate.pass (face.input.read outer) c.innerInput c.links

def intake (c : Circuit Gate) (face : Face) (outer : LinkTable) : Option Value :=
  (face.input.read outer).toOption.bind (·.filter c.innerInput.interface.accepts)

/-- The next two steps, gates and links, after `links` have been written from outside. -/
def advanced (c : Circuit Gate) (links : LinkTable) : Circuit Gate :=
  { c with
    gates := (Gate.updateAll links c.gates).1
    links := (Gate.updateAll links c.gates).2.updateAll }

/-- The last step: the inner output goes to the outer one. -/
def pulled (c : Circuit Gate) (face : Face) (outer : LinkTable) : LinkTable × Except Fault Unit :=
  if face.output.interface.isNone then (outer, .ok ())
  else Gate.pass (c.innerOutput.read c.links) face.output outer

end Circuit

namespace Gate

theorem update_circuit_of_error {face : Face} {c : Circuit Gate} {outer links : LinkTable}
    {e : Fault} (h : c.pushed face outer = (links, .error e)) :
    (Gate.circuit face c).update outer =
      (.circuit { face with fault := some e } { c with links }, outer) := by
  obtain ⟨gates, t, i, o, r, k⟩ := c
  simp only [Circuit.pushed] at h
  simp only [update, h]
  rfl

theorem update_circuit_of_ok {face : Face} {c : Circuit Gate} {outer links : LinkTable}
    (h : c.pushed face outer = (links, .ok ())) :
    (Gate.circuit face c).update outer =
      (.circuit (withFault face ((c.advanced links).pulled face outer).2) (c.advanced links),
        ((c.advanced links).pulled face outer).1) := by
  obtain ⟨gates, t, i, o, r, k⟩ := c
  simp only [Circuit.pushed] at h
  simp only [update, h]
  rfl

/-- The value that a gate gives out when it is updated against `t`, if it gives out any. -/
def emission (t : LinkTable) : Gate → Option Value
  | .function face _ transform =>
    match readInput face t, transform with
    | .ok v, some f => (f.run v).2.toOption.bind face.accepted
    | _, _ => none
  | .circuit face c =>
    match c.pushed face t with
    | (links, .ok ()) =>
      ((c.advanced links).innerOutput.read (c.advanced links).links).toOption.bind face.accepted
    | (_, .error _) => none

def writes (t : LinkTable) (g : Gate) : List (LinkId × Value) :=
  (g.emission t).elim [] g.output.delivery

theorem write_fst {p : Port} (hp : p.Shaped .output) (v : Value) (t : LinkTable) :
    (p.write v t).1 = t.writeEach (((some v).filter p.interface.accepts).elim [] p.delivery) := by
  cases h : p.interface.accepts v with
  | false =>
    have hf : (some v).filter p.interface.accepts = none := by simp [Option.filter, h]
    rw [Port.write_eq_of_not_accepts hp h, hf]
    rfl
  | true =>
    have hf : (some v).filter p.interface.accepts = some v := by simp [Option.filter, h]
    rw [Port.write_eq hp h, hf]
    rfl

theorem write_snd_congr {p : Port} (hp : p.Shaped .output) (v : Value) (t u : LinkTable) :
    (p.write v t).2 = (p.write v u).2 := by
  cases h : p.interface.accepts v with
  | false => rw [Port.write_eq_of_not_accepts hp h, Port.write_eq_of_not_accepts hp h]
  | true => rw [Port.write_eq hp h, Port.write_eq hp h]

theorem accepts_of_isNone {i : Interface} (h : i.isNone = true) (v : Value) :
    i.accepts v = false := by
  cases i <;> simp_all [Interface.isNone, Interface.accepts]

theorem filter_accepts_of_isNone {i : Interface} (h : i.isNone = true) (v : Option Value) :
    v.filter i.accepts = none := by
  cases v <;> simp [accepts_of_isNone h]

theorem pass_fst {p : Port} (hp : p.Shaped .output) (v : Except Fault (Option Value))
    (t : LinkTable) :
    (pass v p t).1 =
      t.writeEach ((v.toOption.bind (·.filter p.interface.accepts)).elim [] p.delivery) := by
  match v with
  | .error e => rfl
  | .ok none => rfl
  | .ok (some v) => exact write_fst hp v t

theorem pass_snd_congr {p : Port} (hp : p.Shaped .output) (v : Except Fault (Option Value))
    (t u : LinkTable) : (pass v p t).2 = (pass v p u).2 := by
  match v with
  | .error e => rfl
  | .ok none => rfl
  | .ok (some v) => exact write_snd_congr hp v t u

theorem pushed_fst {c : Circuit Gate} (hp : c.innerInput.Shaped .output) (face : Face)
    (outer : LinkTable) :
    (c.pushed face outer).1 =
      c.links.writeEach ((c.intake face outer).elim [] c.innerInput.delivery) := by
  unfold Circuit.pushed
  split
  next h =>
    have hn : c.intake face outer = none := by
      rw [Circuit.intake]
      cases (face.input.read outer).toOption with
      | none => rfl
      | some v => exact filter_accepts_of_isNone h v
    rw [hn]
    rfl
  next => exact pass_fst hp _ c.links

theorem stale_pushed {c : Circuit Gate} (hp : c.innerInput.Shaped .output) (face : Face)
    (outer : LinkTable) : (c.pushed face outer).1.stale = c.links.stale := by
  rw [pushed_fst hp, LinkTable.stale_writeEach]

theorem writeOutput_fst {face : Face} (hp : face.output.Shaped .output) (v : Option Value)
    (t : LinkTable) :
    (writeOutput face v t).1 = t.writeEach ((face.accepted v).elim [] face.output.delivery) := by
  unfold writeOutput Face.accepted
  split
  next h => rw [filter_accepts_of_isNone h]; rfl
  next =>
    cases v with
    | none => rfl
    | some v => exact write_fst hp v t

theorem writeOutput_snd_congr {face : Face} (hp : face.output.Shaped .output) (v : Option Value)
    (t u : LinkTable) : (writeOutput face v t).2 = (writeOutput face v u).2 := by
  unfold writeOutput
  split
  · rfl
  · cases v with
    | none => rfl
    | some v => exact write_snd_congr hp v t u

theorem pulled_fst {face : Face} (hp : face.output.Shaped .output) (c : Circuit Gate)
    (t : LinkTable) :
    (c.pulled face t).1 =
      t.writeEach (((c.innerOutput.read c.links).toOption.bind face.accepted).elim []
        face.output.delivery) := by
  unfold Circuit.pulled
  split
  next h =>
    have hn : (c.innerOutput.read c.links).toOption.bind face.accepted = none := by
      cases (c.innerOutput.read c.links).toOption with
      | none => rfl
      | some v => exact filter_accepts_of_isNone h v
    rw [hn]
    rfl
  next => exact pass_fst hp _ t

theorem pulled_snd_congr {face : Face} (hp : face.output.Shaped .output) (c : Circuit Gate)
    (t u : LinkTable) : (c.pulled face t).2 = (c.pulled face u).2 := by
  unfold Circuit.pulled
  split
  · rfl
  · exact pass_snd_congr hp _ t u

theorem read_congr {t u : LinkTable} (h : t.stale = u.stale) (p : Port) : p.read t = p.read u := by
  rw [← Port.read_stale, h, Port.read_stale]

theorem readInput_of_read {face : Face} {t u : LinkTable}
    (h : face.input.read t = face.input.read u) : readInput face t = readInput face u := by
  rw [readInput, readInput, h]

theorem pushed_of_read {face : Face} {t u : LinkTable}
    (h : face.input.read t = face.input.read u) (c : Circuit Gate) :
    c.pushed face t = c.pushed face u := by
  rw [Circuit.pushed, Circuit.pushed, h]

theorem update_fst_of_read {g : Gate} (hg : g.PortsShaped) {t u : LinkTable}
    (h : g.input.read t = g.input.read u) : (g.update t).1 = (g.update u).1 := by
  cases g with
  | function face name transform =>
    have ho : face.output.Shaped .output := hg .output
    have hread : readInput face t = readInput face u := readInput_of_read h
    simp only [update, applyTransform, hread]
    cases hv : readInput face u with
    | error e => rfl
    | ok v =>
      cases transform with
      | none => rfl
      | some f =>
        dsimp only
        match hr : f.run v with
        | (f', .error e) => rfl
        | (f', .ok w) =>
          dsimp only
          rw [writeOutput_snd_congr ho w t u]
  | circuit face c =>
    have ho : face.output.Shaped .output := hg .output
    have hpushed : c.pushed face t = c.pushed face u := pushed_of_read h c
    cases hp : c.pushed face t with
    | mk links result =>
      cases result with
      | error e => rw [update_circuit_of_error hp, update_circuit_of_error (hpushed ▸ hp)]
      | ok =>
        rw [update_circuit_of_ok hp, update_circuit_of_ok (hpushed ▸ hp),
          pulled_snd_congr ho _ t u]

theorem emission_of_read {g : Gate} {t u : LinkTable} (h : g.input.read t = g.input.read u) :
    g.emission t = g.emission u := by
  cases g with
  | function face name transform =>
    have hread : readInput face t = readInput face u := readInput_of_read h
    simp only [emission, hread]
  | circuit face c =>
    have hpushed : c.pushed face t = c.pushed face u := pushed_of_read h c
    simp only [emission, hpushed]

theorem update_fst_congr {g : Gate} (hg : g.PortsShaped) {t u : LinkTable} (h : t.stale = u.stale) :
    (g.update t).1 = (g.update u).1 :=
  update_fst_of_read hg (read_congr h g.input)

theorem emission_congr {t u : LinkTable} (h : t.stale = u.stale) (g : Gate) :
    g.emission t = g.emission u :=
  emission_of_read (read_congr h g.input)

theorem update_snd {g : Gate} (hg : g.PortsShaped) (t : LinkTable) :
    (g.update t).2 = t.writeEach (g.writes t) := by
  cases g with
  | function face name transform =>
    have ho : face.output.Shaped .output := hg .output
    simp only [update, applyTransform, writes, emission]
    cases hv : readInput face t with
    | error e => rfl
    | ok v =>
      cases transform with
      | none => rfl
      | some f =>
        dsimp only
        match hr : f.run v with
        | (f', .error e) => rfl
        | (f', .ok w) => exact writeOutput_fst ho w t
  | circuit face c =>
    have ho : face.output.Shaped .output := hg .output
    cases hp : c.pushed face t with
    | mk links result =>
      cases result with
      | error e =>
        rw [update_circuit_of_error hp, writes, emission, hp]
        rfl
      | ok =>
        rw [update_circuit_of_ok hp, writes, emission, hp]
        exact pulled_fst ho _ t

theorem port_update (g : Gate) (t : LinkTable) (d : Direction) :
    (g.update t).1.port d = g.port d := by
  have hface : ∀ (face : Face) (r : Except Fault Unit),
      (withFault face r).input = face.input ∧ (withFault face r).output = face.output := by
    intro face r
    cases r <;> exact ⟨rfl, rfl⟩
  cases g with
  | function face name transform => cases d <;> simp [update, port, input, output, Gate.face, hface]
  | circuit face c =>
    cases hp : c.pushed face t with
    | mk links result =>
      cases result with
      | error e =>
        rw [update_circuit_of_error hp]
        cases d <;> rfl
      | ok =>
        rw [update_circuit_of_ok hp]
        cases d <;> simp [port, input, output, Gate.face, hface]

theorem writes_congr {t u : LinkTable} (h : t.stale = u.stale) (g : Gate) :
    g.writes t = g.writes u := by
  rw [writes, writes, emission_congr h]

/-- Gates that are updated one after the other all see the table as it was at first. -/
theorem updateAll_eq {gates : List (GateId × Gate)} (hg : ∀ e ∈ gates, e.2.PortsShaped)
    (t : LinkTable) :
    updateAll t gates = (gates.map fun (id, g) => (id, (g.update t).1),
      t.writeEach (gates.flatMap fun (_, g) => g.writes t)) := by
  induction gates generalizing t with
  | nil => rfl
  | cons e gates ih =>
    obtain ⟨id, g⟩ := e
    have hs : (g.update t).2.stale = t.stale := by
      rw [update_snd (hg _ List.mem_cons_self), LinkTable.stale_writeEach]
    have hrest : ∀ e ∈ gates, e.2.PortsShaped := fun e he => hg e (List.mem_cons_of_mem _ he)
    have hmap : (gates.map fun e => (e.1, (e.2.update (g.update t).2).1)) =
        gates.map fun e => (e.1, (e.2.update t).1) :=
      List.map_congr_left fun e he => by rw [update_fst_congr (hrest e he) hs]
    have hws : (gates.flatMap fun e => e.2.writes (g.update t).2) =
        gates.flatMap fun e => e.2.writes t := by
      congr 1
      funext e
      rw [writes_congr hs]
    show ((id, (g.update t).1) :: (updateAll (g.update t).2 gates).1,
      (updateAll (g.update t).2 gates).2) = _
    rw [ih hrest, hmap, hws, update_snd (hg _ List.mem_cons_self), ← LinkTable.writeEach_append]
    rfl

end Gate
end TickCircuit
