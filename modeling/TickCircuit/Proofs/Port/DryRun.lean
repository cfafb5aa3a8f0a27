import TickCircuit.Proofs.Port.Mirror
import TickCircuit.Proofs.Port.Occupancy
/-!
Resolving as a dry run. Main statement: what `resolve` says of a path is what binding a link there
comes to, and paths that were resolved never make too many sub-ports (`bind_goes_as_resolved`).
-/
namespace TickCircuit
namespace Port

theorem isSome_sub?_modifyAt {f : Port → Port} (hf : ∀ q, (f q).subs = q.subs) (path π : Path)
    (p : Port) : ((modifyAt f path p).sub? π).isSome = (p.sub? π).isSome := by
  induction path generalizing p π with
  | nil => cases π <;> simp [modifyAt, sub?, hf]
  | cons i path ih =>
    cases π with
    | nil => rfl
    | cons k π =>
      by_cases hk : i = k
      · subst hk
        cases hs : p.subs[i]? <;> simp [modifyAt, sub?, hs, ih]
      · simp [modifyAt, sub?, hk]

theorem isSome_sub?_grow {path π : Path} {p : Port} (h : (p.sub? π).isSome) :
    ((grow path p).1.sub? π).isSome := by
  induction π generalizing path p with
  | nil => rfl
  | cons k π ih =>
    cases path with
    | nil => exact h
    | cons i rest =>
      obtain ⟨q, hq⟩ := Option.isSome_iff_exists.mp h
      obtain ⟨r, hr, hbelow⟩ := Option.bind_eq_some_iff.mp hq
      have hlt := (List.getElem?_eq_some_iff.mp hr).1
      have hgrown : (p.subs ++ (fresh p.direction p.interface p.subs.length
          (i + 1 - p.subs.length)).1)[k]? = some r := by
        rw [List.getElem?_append_left hlt, hr]
      unfold grow
      dsimp only
      split
      · simp [sub?, hgrown, hbelow]
      · simp [sub?, hgrown, hbelow]
      next sub _ hsub =>
        by_cases hik : i = k
        · subst hik
          cases hsub.symm.trans hgrown
          have hlt := (List.getElem?_eq_some_iff.mp hgrown).1
          simp only [sub?, List.getElem?_set_self hlt, Option.bind_eq_bind, Option.bind_some]
          exact ih (Option.isSome_iff_exists.mpr ⟨q, hbelow⟩)
        · simp [sub?, List.getElem?_set_ne hik, hgrown, hbelow]

/-- The port `p'` is what a resolved leaf promises of binding link `id` there. -/
structure Foretold (p : Port) (leaf : Leaf) (id : LinkId) (p' : Port) : Prop where
  bound : ∃ q, p'.sub? leaf.path = some q ∧ q.interface = leaf.interface ∧
    q.links.getLast? = some id
  occupied : leaf.isOccupied = true ↔ ∃ below, p.linksAt (leaf.path ++ below) ≠ []
  kept : ∀ {π q}, p.sub? π = some q → ∃ q', p'.sub? π = some q' ∧ q'.interface = q.interface ∧
    q'.links = q.links ++ if π = leaf.path then [id] else []
  made : ∀ {π q}, p.sub? π = none → p'.sub? π = some q →
    q.links = if π = leaf.path then [id] else []
  again : p'.resolve (Path.spec leaf.path) = .ok { leaf with isOccupied := true }

theorem Shaped.resolve_of_resolve {d : Direction} {p q : Port} (hp : p.Shaped d) (hq : q.Shaped d)
    (hi : q.interface = p.interface) {path : Path} {leaf : Leaf}
    (h : p.resolve (Path.spec path) = .ok leaf) : q.resolve (Path.spec path) =
      .ok { leaf with isOccupied := (q.sub? path).any isLinked } := by
  rw [resolve, hp.follow_path] at h
  rw [resolve, hq.follow_path, hi]
  cases hf : follow (Path.spec path) none p.interface (Path.spec path) with
  | error e =>
    rw [hf] at h
    cases h
  | ok leaf' =>
    rw [hf] at h
    cases h
    rfl

theorem linksAt_of_sub? {p q : Port} {path : Path} (h : p.sub? path = some q) :
    p.linksAt path = q.links := by
  rw [linksAt, h]
  rfl

theorem Shaped.foretold {d : Direction} {p : Port} (hp : p.Shaped d) {spec : PathSpec}
    {leaf : Leaf} (h : p.resolve spec = .ok leaf) (id : LinkId) :
    ∃ p', p.attach leaf.path id = (p', .ok ()) ∧ p.Foretold leaf id p' := by
  obtain ⟨hok, hshaped, htype, q, hq, hqi⟩ := attach_resolved hp h id
  have hgrow := (grow_follow hp h).2.1
  have hlinks := linksAt_attach hgrow id
  have hsome : ∀ π, (p.sub? π).isSome → ((p.attach leaf.path id).1.sub? π).isSome := by
    intro π hπ
    rw [attach_eq hgrow, isSome_sub?_modifyAt (by intro; rfl)]
    exact isSome_sub?_grow hπ
  refine ⟨_, Prod.ext rfl hok, ⟨⟨q, hq, hqi, ?_⟩, ?_, ?_, ?_, ?_⟩⟩
  · rw [← linksAt_of_sub? hq, hlinks, if_pos rfl, List.getLast?_concat]
  · rw [isOccupied_of_resolve h, ← Bool.not_eq_false, isLinked_sub?, Classical.not_forall]
  · intro π r hr
    obtain ⟨r', hr'⟩ := Option.isSome_iff_exists.mp (hsome π (by rw [hr]; rfl))
    have hri := hshaped.childAt hr'
    rw [htype, hp.childAt hr] at hri
    refine ⟨r', hr', (Option.some.inj hri).symm, ?_⟩
    rw [← linksAt_of_sub? hr', hlinks, linksAt_of_sub? hr]
  · intro π r hnone hr
    rw [← linksAt_of_sub? hr, hlinks, linksAt, hnone]
    rfl
  · rw [hp.resolve_of_resolve hshaped htype (resolve_spec h)]
    have hlinked : ((p.attach leaf.path id).1.sub? leaf.path).any isLinked = true := by
      rw [← Bool.not_eq_false, isLinked_sub?]
      intro hfree
      have hnil := hfree []
      rw [List.append_nil, hlinks, if_pos rfl] at hnil
      exact absurd hnil (by simp)
    rw [hlinked]

theorem isOccupied_of_follow_next {whole steps : PathSpec} {port : Option Port}
    {interface : Interface} {leaf : Leaf} (h : follow whole port interface steps = .ok leaf)
    (hlast : steps.getLast? = some .next) : leaf.isOccupied = false := by
  induction steps generalizing port interface leaf with
  | nil => cases hlast
  | cons step steps ih =>
    obtain ⟨index, child, rest, hopen, -, hrest, rfl⟩ := of_follow_cons h
    cases steps with
    | nil =>
      cases hlast
      obtain ⟨-, hindex⟩ := hopen.2.1 rfl
      have hnone : port.bind (·.subs[index]?) = none := by
        rw [hindex]
        cases port <;> simp
      rw [hnone] at hrest
      cases hrest
      rfl
    | cons step' steps =>
      rw [List.getLast?_cons_cons] at hlast
      have hbelow := ih hrest hlast
      exact hbelow

/-- No part that grows on demand has more sub-ports than a path may name. -/
def Bounded (p : Port) : Prop :=
  ∀ path q, p.sub? path = some q → q.interface.isExpandable → q.subs.length ≤ maxSubPorts

theorem bounded_iff {p : Port} : p.Bounded ↔
    (p.interface.isExpandable → p.subs.length ≤ maxSubPorts) ∧ ∀ q ∈ p.subs, q.Bounded := by
  constructor
  · intro h
    refine ⟨h [] p rfl, fun q hq path r hr => ?_⟩
    obtain ⟨k, hk⟩ := List.getElem?_of_mem hq
    exact h (k :: path) r (Option.bind_eq_some_iff.mpr ⟨q, hk, hr⟩)
  · rintro ⟨here, subs⟩ path r hr
    cases path with
    | nil =>
      cases hr
      exact here
    | cons k path =>
      obtain ⟨q, hq, hr⟩ := Option.bind_eq_some_iff.mp hr
      exact subs q (List.mem_of_getElem? hq) path r hr

theorem bounded_new (d : Direction) (i : Interface) : (new d i).Bounded := by
  induction i with
  | collection l cs ih =>
    refine bounded_iff.mpr ⟨nofun, fun q hq => ?_⟩
    simp only [new, newAll_eq_map, List.mem_map] at hq
    obtain ⟨c, hc, rfl⟩ := hq
    exact ih c hc
  | _ => exact bounded_iff.mpr ⟨fun _ => Nat.zero_le _, by simp [new]⟩

namespace Bounded
variable {p : Port}

theorem modifyAt (h : p.Bounded) {f : Port → Port} (hf : ∀ q, f q = { q with links := (f q).links })
    (path : Path) : (Port.modifyAt f path p).Bounded := by
  induction path generalizing p with
  | nil =>
    obtain ⟨here, subs⟩ := bounded_iff.mp h
    rw [Port.modifyAt, hf]
    exact bounded_iff.mpr ⟨here, subs⟩
  | cons i path ih =>
    obtain ⟨here, subs⟩ := bounded_iff.mp h
    refine bounded_iff.mpr ⟨fun he => ?_, fun q hq => ?_⟩
    · simpa [Port.modifyAt] using here he
    · obtain ⟨k, hk⟩ := List.getElem?_of_mem hq
      simp only [Port.modifyAt, List.getElem?_modify] at hk
      obtain ⟨r, hr, rfl⟩ := Option.map_eq_some_iff.mp hk
      have hr := subs r (List.mem_of_getElem? hr)
      split
      · exact ih hr
      · exact hr

/-- A path that was resolved names no sub-port past the limit, so that none is made there. -/
theorem grow_follow {whole steps : PathSpec} {d : Direction} {leaf : Leaf} (h : p.Bounded)
    (hp : p.Shaped d) (hf : follow whole (some p) p.interface steps = .ok leaf) :
    (grow leaf.path p).1.Bounded := by
  induction steps generalizing p leaf with
  | nil =>
    cases hf
    exact h
  | cons step steps ih =>
    obtain ⟨i, c, rest, hopen, hchild, rfl, hsub, hfollow⟩ := hp.of_follow_cons hf
    obtain ⟨more, hlength, hnew, -, hgrow⟩ := hp.grow_cons hchild rest.path
    obtain ⟨here, subs⟩ := bounded_iff.mp h
    rw [hgrow]
    refine bounded_iff.mpr ⟨fun he => ?_, fun q hq => ?_⟩
    · have hp := here he
      have hi := hopen.2.2 he
      simp only [List.length_set, List.length_append, hlength]
      omega
    · obtain hq | rfl := List.mem_or_eq_of_mem_set hq
      · obtain hq | hq := List.mem_append.mp hq
        · exact subs q hq
        · obtain ⟨c, rfl⟩ := hnew q hq
          exact bounded_new d c
      · refine ih ?_ hsub hfollow
        cases hs : p.subs[i]? with
        | some s => exact subs s (List.mem_of_getElem? hs)
        | none => exact bounded_new d c

theorem connect {d : Direction} (h : p.Bounded) (hp : p.Shaped d) (id : LinkId) (spec : PathSpec)
    (data : Interface) : (p.connect id spec data).1.Bounded := by
  obtain ⟨e, he⟩ | ⟨leaf, hr, -, he⟩ := connect_cases hp id spec data
  · rw [he]
    exact h
  · rw [he, attach_eq (Port.grow_follow hp hr).2.1]
    exact (h.grow_follow hp hr).modifyAt (by intro; rfl) leaf.path

theorem detach (h : p.Bounded) (path : Path) (id : LinkId) : (p.detach path id).Bounded :=
  h.modifyAt (by intro; rfl) path

theorem speculate (h : p.Bounded) : p.speculate.1.Bounded := by
  obtain ⟨-, subs⟩ := bounded_iff.mp h
  unfold Port.speculate
  dsimp only
  split
  next child _ _ =>
    split
    · exact h
    next hroom =>
      refine bounded_iff.mpr ⟨fun _ => ?_, fun q hq => ?_⟩
      · simp only [List.length_append, List.length_singleton]
        omega
      · obtain hq | hq := List.mem_append.mp hq
        · exact subs q hq
        · rw [List.mem_singleton.mp hq]
          exact bounded_new p.direction child
  · exact h

theorem retract (h : p.Bounded) : p.retract.1.Bounded := by
  obtain he | ⟨he, kept, hkept, hr⟩ := p.retract_cases
  · rw [he]
    exact h
  · obtain ⟨here, subs⟩ := bounded_iff.mp h
    rw [hr]
    exact bounded_iff.mpr ⟨fun _ => Nat.le_trans hkept.length_le (here he),
      fun q hq => subs q (hkept.subset hq)⟩

end Bounded

/-- Whether sub-ports come of it only where a path was resolved or room was found. -/
def Revision.isChecked : Revision → Bool
  | .attach .. | .retype _ => false
  | _ => true

theorem Bounded.revised {d : Direction} {p : Port} (h : p.Bounded) (hp : p.Shaped d)
    {r : Revision} (hr : r.isChecked) : (p.revised r).Bounded := by
  cases r with
  | connect id spec data => exact h.connect hp id spec data
  | attach path id => cases hr
  | detach path id => exact h.detach path id
  | retype target => cases hr
  | speculate => exact h.speculate
  | retract => exact h.retract

theorem bounded_foldl_revised (d : Direction) (i : Interface) {rs : List Revision}
    (hrs : ∀ r ∈ rs, r.isChecked) : (rs.foldl revised (new d i)).Bounded := by
  have hrun : ∀ p : Port, p.Shaped d → p.Bounded → (rs.foldl revised p).Bounded := by
    induction rs with
    | nil => exact fun p _ h => h
    | cons r rs ih =>
      intro p hp h
      exact ih (fun r hr => hrs r (List.mem_cons_of_mem _ hr)) _ (hp.revised r)
        (h.revised hp (hrs r List.mem_cons_self))
  exact hrun _ (shaped_new d i) (bounded_new d i)

/-- Resolving says what binding comes to, and a path that does not resolve is not bound. Where
paths are only bound once they are resolved, nothing grows past the limit. -/
theorem bind_goes_as_resolved (d : Direction) :
    (∀ {p : Port}, p.Reachable d → ∀ spec,
      (∀ leaf, p.resolve spec = .ok leaf →
        (∀ id, ∃ p', p.attach leaf.path id = (p', .ok ()) ∧ p.Foretold leaf id p') ∧
        (spec.getLast? = some .next → leaf.isOccupied = false)) ∧
      ∀ e, p.resolve spec = .error e → ∀ id data, p.connect id spec data = (p, .error e)) ∧
    ∀ i (rs : List Revision), (∀ r ∈ rs, r.isChecked) → ∀ path (q : Port),
      (rs.foldl revised (new d i)).sub? path = some q → q.interface.isExpandable →
        q.subs.length ≤ maxSubPorts := by
  refine ⟨fun {p} hp spec => ⟨fun leaf hr => ⟨fun id => ?_, fun hlast => ?_⟩, ?_⟩, ?_⟩
  · exact hp.shaped.foretold hr id
  · exact isOccupied_of_follow_next hr hlast
  · intro e he id data
    simp only [connect, he]
  · intro i rs hrs
    exact bounded_foldl_revised d i hrs

/-- In a table with one pair, a part of a third pair is asked for. -/
theorem bind_goes_as_resolved_table :
    let row : Interface := .collection none [.bit none, .any none]
    let rs : List Revision := [.connect 7 [.index 0, .index 0] (.bit none)]
    let p := rs.foldl revised (new .output (.rest none row))
    let leaf : Leaf := ⟨[2, 1, 0], .any none, false⟩
    p.resolve [.index 2, .index 1, .next] = .ok leaf ∧
      (∃ p', p.attach leaf.path 8 = (p', .ok ()) ∧ p.Foretold leaf 8 p') ∧
      p.subs.length ≤ maxSubPorts := by
  intro row rs p leaf
  have hp : p.Reachable .output := (Reachable.new (.rest none row)).foldl_revised rs
  have hr : p.resolve [.index 2, .index 1, .next] = .ok leaf := rfl
  obtain ⟨hgoes, hbounded⟩ := bind_goes_as_resolved .output
  refine ⟨hr, ((hgoes hp _).1 leaf hr).1 8, ?_⟩
  exact hbounded (.rest none row) rs (by simp [rs, Revision.isChecked]) [] p rfl rfl

end Port
end TickCircuit
