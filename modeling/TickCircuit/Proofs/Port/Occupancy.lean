import TickCircuit.Proofs.Port.Resolve
/-!
Links at an input. A connect looks for links at the end of its path and below it, and not above it.
Main statement: no part of an input has two links of its own, and of two links at nested parts the
upper one was bound first (`upper_link_first`).
-/
namespace TickCircuit
namespace Port

theorem linksAt_append_path (p : Port) (path below : Path) :
    p.linksAt (path ++ below) = (p.sub? path).elim [] (·.linksAt below) := by
  induction path generalizing p with
  | nil => rfl
  | cons k path ih =>
    rw [List.cons_append, linksAt_cons]
    cases hs : p.subs[k]? with
    | none => simp [sub?, hs]
    | some q => simpa [sub?, hs] using ih q

theorem isLinked_sub? {p : Port} {path : Path} :
    (p.sub? path).any isLinked = false ↔ ∀ below, p.linksAt (path ++ below) = [] := by
  simp only [linksAt_append_path]
  cases p.sub? path with
  | none => simp
  | some q => simpa using isLinked_eq_false

theorem isOccupied_of_follow {whole steps : PathSpec} {port : Option Port} {interface : Interface}
    {leaf : Leaf} (h : follow whole port interface steps = .ok leaf) :
    leaf.isOccupied = (port.bind (·.sub? leaf.path)).any isLinked := by
  induction steps generalizing port interface leaf with
  | nil =>
    cases h
    cases port <;> rfl
  | cons step steps ih =>
    obtain ⟨index, child, rest, -, -, hrest, rfl⟩ := of_follow_cons h
    rw [ih hrest]
    cases port <;> simp [sub?]

theorem isOccupied_of_resolve {p : Port} {spec : PathSpec} {leaf : Leaf}
    (h : p.resolve spec = .ok leaf) : leaf.isOccupied = (p.sub? leaf.path).any isLinked :=
  isOccupied_of_follow h

theorem Shaped.follow_path {d : Direction} {p : Port} (hp : p.Shaped d) (whole : PathSpec)
    (path : Path) : follow whole (some p) p.interface (Path.spec path) =
      (fun leaf => { leaf with isOccupied := (p.sub? path).any isLinked }) <$>
        follow whole none p.interface (Path.spec path) := by
  induction path generalizing p with
  | nil => rfl
  | cons i path ih =>
    have hpath : Path.spec (i :: path) = .index i :: Path.spec path := rfl
    rw [hpath]
    unfold follow
    dsimp only [Step.indexAt, Option.bind_some, Option.bind_none, Option.elim_none]
    by_cases hlimit : p.interface.isExpandable = true ∧ maxSubPorts ≤ i
    · simp [hlimit, Functor.map, Except.map]
    simp only [reduceCtorEq, false_and, if_false, if_neg hlimit]
    cases hc : p.interface.child? i with
    | none => rfl
    | some child =>
      dsimp only
      cases hs : p.subs[i]? with
      | none =>
        dsimp only [Option.elim_none]
        cases hf : follow whole none child (Path.spec path) with
        | error e => rfl
        | ok leaf =>
          have ho := isOccupied_of_follow hf
          simp only [Option.bind_none, Option.any_none] at ho
          simp [Functor.map, Except.map, sub?, hs, ho]
      | some q =>
        have hq : q.interface = child := by
          have h := hp.fits.child hs
          rw [hc] at h
          exact (Option.some.inj h).symm
        dsimp only [Option.elim_some]
        rw [ih (hp.sub hs), hq]
        cases follow whole none child (Path.spec path) with
        | error e => rfl
        | ok leaf => simp [Functor.map, Except.map, sub?, hs]

theorem Shaped.resolve_congr {d : Direction} {p q : Port} (hp : p.Shaped d) (hq : q.Shaped d)
    (hi : p.interface = q.interface) (path : Path)
    (hl : ∀ below, p.linksAt (path ++ below) = q.linksAt (path ++ below)) :
    p.resolve (Path.spec path) = q.resolve (Path.spec path) := by
  have hlinked : (p.sub? path).any isLinked = (q.sub? path).any isLinked := by
    rw [Bool.eq_iff_iff, ← Decidable.not_iff_not, Bool.not_eq_true, Bool.not_eq_true,
      isLinked_sub?, isLinked_sub?]
    simp only [hl]
  rw [resolve, resolve, hp.follow_path, hq.follow_path, hi, hlinked]

theorem Shaped.connect_eq_ok {p : Port} (hp : p.Shaped .input) {id : LinkId} {spec : PathSpec}
    {data : Interface} {path : Path} :
    (p.connect id spec data).2 = .ok path ↔ ∃ leaf, p.resolve spec = .ok leaf ∧ leaf.path = path ∧
      leaf.interface.admits data = true ∧ ∀ below, p.linksAt (path ++ below) = [] := by
  have hcheck : ∀ leaf, p.resolve spec = .ok leaf → (checkLeaf .input leaf data = .ok () ↔
      leaf.interface.admits data = true ∧ ∀ below, p.linksAt (leaf.path ++ below) = []) := by
    intro leaf hr
    rw [← isLinked_sub?, ← isOccupied_of_resolve hr, checkLeaf]
    by_cases ha : leaf.interface.admits data = true <;>
      cases ho : leaf.isOccupied <;> simp [ha]
  unfold connect
  cases hr : p.resolve spec with
  | error e => simp
  | ok leaf =>
    dsimp only
    rw [hp.fits.direction]
    cases hl : checkLeaf .input leaf data with
    | error e =>
      refine ⟨nofun, fun ⟨leaf', he, hpath, hfree⟩ => ?_⟩
      cases he
      subst hpath
      cases hl.symm.trans ((hcheck leaf hr).mpr hfree)
    | ok u =>
      have hfree := (hcheck leaf hr).mp hl
      have hok := (attach_resolved hp hr id).1
      constructor
      · intro h
        simp only [hok] at h
        cases h
        exact ⟨leaf, rfl, rfl, hfree⟩
      · intro h
        obtain ⟨leaf', he, hpath, -⟩ := h
        cases he
        simp only [hok, ← hpath]
        rfl

theorem Shaped.connected {p p' : Port} (hp : p.Shaped .input) {id : LinkId} {spec : PathSpec}
    {data : Interface} {path : Path} (h : p.connect id spec data = (p', .ok path)) :
    p'.Shaped .input ∧ p'.interface = p.interface ∧
      ∀ π, p'.linksAt π = p.linksAt π ++ if π = path then [id] else [] := by
  obtain ⟨e, he⟩ | ⟨leaf, hr, -, he⟩ := connect_cases hp id spec data
  · cases h.symm.trans he
  · cases h.symm.trans he
    obtain ⟨-, hs, hi, -⟩ := attach_resolved hp hr id
    exact ⟨hs, hi, linksAt_attach (grow_follow hp hr).2.1 id⟩

/-- A link, and the part of a port to which it is bound. -/
structure Binding where
  path : Path
  link : LinkId
deriving DecidableEq

inductive Change where
  | connect (link : LinkId) (spec : PathSpec) (data : Interface)
  | detach (path : Path) (link : LinkId)

/-- A port, and what is bound to it in the order in which it was bound. -/
structure Record where
  port : Port
  bindings : List Binding

def Change.run (r : Record) : Change → Record
  | .connect link spec data =>
    match r.port.connect link spec data with
    | (p, .ok path) => ⟨p, r.bindings ++ [⟨path, link⟩]⟩
    | (p, .error _) => ⟨p, r.bindings⟩
  | .detach path link => ⟨r.port.detach path link, r.bindings.filter (· ≠ ⟨path, link⟩)⟩

def changed (i : Interface) (changes : List Change) : Record :=
  changes.foldl Change.run ⟨.new .input i, []⟩

/-- The record says what is bound where, and no part was taken when it, or a part of it, had been
taken before. -/
structure Record.Sound (r : Record) : Prop where
  shaped : r.port.Shaped .input
  bound : ∀ path, r.port.linksAt path = (r.bindings.filter (·.path = path)).map (·.link)
  order : r.bindings.Pairwise fun a b => ¬b.path <+: a.path

namespace Record.Sound
variable {r : Record}

theorem new (i : Interface) : Record.Sound ⟨Port.new .input i, []⟩ :=
  ⟨shaped_new .input i, linksAt_new .input i, .nil⟩

theorem not_prefix (h : r.Sound) {path : Path} (hfree : ∀ below, r.port.linksAt (path ++ below) = [])
    {b : Binding} (hb : b ∈ r.bindings) : ¬path <+: b.path := by
  intro hp
  obtain ⟨below, hbelow⟩ := hp
  have hnil := hfree below
  rw [h.bound, List.map_eq_nil_iff, List.filter_eq_nil_iff] at hnil
  simpa [hbelow] using hnil b hb

theorem run (h : r.Sound) (change : Change) : (change.run r).Sound := by
  cases change with
  | connect link spec data =>
    rw [Change.run]
    cases hc : r.port.connect link spec data with
    | mk p outcome =>
      cases outcome with
      | error e =>
        obtain ⟨e', he⟩ | ⟨leaf, -, -, he⟩ := connect_cases h.shaped link spec data
        · rw [he] at hc
          cases hc
          exact h
        · cases hc.symm.trans he
      | ok path =>
        obtain ⟨hs, -, hl⟩ := h.shaped.connected hc
        obtain ⟨leaf, -, -, -, hfree⟩ := h.shaped.connect_eq_ok.mp (congrArg Prod.snd hc)
        refine ⟨hs, fun π => ?_, List.pairwise_append.mpr ⟨h.order, List.pairwise_singleton .., ?_⟩⟩
        · by_cases hπ : π = path
          · simp [hl, h.bound, hπ]
          · simp [hl, h.bound, hπ, Ne.symm hπ]
        · intro a ha b hb
          cases List.mem_singleton.mp hb
          exact h.not_prefix hfree ha
  | detach path link =>
    refine ⟨(h.shaped.detach path link).1, fun π => ?_, h.order.filter _⟩
    rw [Change.run, linksAt_detach]
    by_cases hπ : π = path
    · subst hπ
      rw [if_pos rfl, h.bound, List.filter_map, List.filter_filter, List.filter_filter]
      congr 1
      refine List.filter_congr fun b _ => ?_
      obtain ⟨path', link'⟩ := b
      by_cases hp : path' = π <;> simp [hp]
    · rw [if_neg hπ, h.bound, List.filter_filter]
      congr 1
      refine List.filter_congr fun b _ => ?_
      obtain ⟨path', link'⟩ := b
      by_cases hp : path' = π
      · simp [hp, hπ]
      · simp [hp]

theorem changed (i : Interface) (changes : List Change) : (changed i changes).Sound := by
  have hrun : ∀ r : Record, r.Sound → (changes.foldl Change.run r).Sound := by
    induction changes with
    | nil => exact fun _ h => h
    | cons change changes ih => exact fun r h => ih _ (h.run change)
  exact hrun _ (new i)

theorem length_linksAt_le (h : r.Sound) (path : Path) : (r.port.linksAt path).length ≤ 1 := by
  have hpair : (r.bindings.filter (·.path = path)).Pairwise fun a b => ¬b.path <+: a.path :=
    h.order.filter _
  rw [h.bound, List.length_map]
  match hl : r.bindings.filter (·.path = path) with
  | [] | [_] => simp [hl]
  | a :: b :: rest =>
    have hmem : ∀ c ∈ a :: b :: rest, c.path = path := fun c hc => by
      rw [← hl, List.mem_filter] at hc
      simpa using hc.2
    rw [hl] at hpair
    have hne := List.rel_of_pairwise_cons hpair List.mem_cons_self
    rw [hmem a (by simp), hmem b (by simp)] at hne
    exact absurd List.prefix_rfl hne

/-- A part is refused once a link is bound below it. -/
theorem refused_above (h : r.Sound) {link : LinkId} {spec : PathSpec} {data : Interface}
    {path below : Path} {p : Port} (hc : r.port.connect link spec data = (p, .ok (path ++ below)))
    (link' : LinkId) (spec' : PathSpec) (data' : Interface) :
    (p.connect link' spec' data').2 ≠ .ok path := by
  intro hok
  obtain ⟨hs, -, hl⟩ := h.shaped.connected hc
  obtain ⟨leaf, -, -, -, hfree⟩ := hs.connect_eq_ok.mp hok
  have hnil := hfree below
  rw [hl, if_pos rfl] at hnil
  simp at hnil

/-- A link bound above a part makes no difference to it. -/
theorem outcome_below (h : r.Sound) {link : LinkId} {spec : PathSpec} {data : Interface}
    {path : Path} {p : Port} (hc : r.port.connect link spec data = (p, .ok path)) {below : Path}
    (hne : below ≠ []) (link' : LinkId) (data' : Interface) :
    (p.connect link' (Path.spec (path ++ below)) data').2 =
      (r.port.connect link' (Path.spec (path ++ below)) data').2 := by
  obtain ⟨hs, hi, hl⟩ := h.shaped.connected hc
  have hr := hs.resolve_congr h.shaped hi (path ++ below) fun rest => by
    have hne' : path ++ below ++ rest ≠ path := by simp [hne]
    rw [hl, if_neg hne', List.append_nil]
  unfold connect
  rw [hr]
  cases hleaf : r.port.resolve (Path.spec (path ++ below)) with
  | error e => rfl
  | ok leaf =>
    dsimp only
    rw [hs.fits.direction, h.shaped.fits.direction]
    cases checkLeaf .input leaf data' with
    | error e => rfl
    | ok u =>
      have hok := (attach_resolved hs (hr.trans hleaf) link').1
      have hok' := (attach_resolved h.shaped hleaf link').1
      simp only [hok, hok']

end Record.Sound
end Port

open Port in
/-- A connect goes by the links at its end and below it, and by nothing above. -/
theorem upper_link_first (i : Interface) (changes : List Change) {r : Record}
    (hr : changed i changes = r) :
    (∀ path, r.port.linksAt path = (r.bindings.filter (·.path = path)).map (·.link) ∧
      (r.port.linksAt path).length ≤ 1) ∧
    (r.bindings.Pairwise fun a b => ¬b.path <+: a.path) ∧
    (∀ link spec data path, (r.port.connect link spec data).2 = .ok path ↔
      ∃ leaf, r.port.resolve spec = .ok leaf ∧ leaf.path = path ∧
        leaf.interface.admits data = true ∧ ∀ below, r.port.linksAt (path ++ below) = []) ∧
    (∀ link spec data path below p, r.port.connect link spec data = (p, .ok (path ++ below)) →
      ∀ link' spec' data', (p.connect link' spec' data').2 ≠ .ok path) ∧
    ∀ link spec data path p, r.port.connect link spec data = (p, .ok path) →
      ∀ below, below ≠ [] → ∀ link' data',
        (p.connect link' (Path.spec (path ++ below)) data').2 =
          (r.port.connect link' (Path.spec (path ++ below)) data').2 := by
  subst hr
  have h := Record.Sound.changed i changes
  refine ⟨fun path => ⟨h.bound path, h.length_linksAt_le path⟩, h.order, ?_, ?_, ?_⟩
  · intro link spec data path
    exact h.shaped.connect_eq_ok
  · intro link spec data path below p hc
    exact h.refused_above hc
  · intro link spec data path p hc below hne
    exact h.outcome_below hc hne

def Interface.pair : Interface := .copies 2 (.bit Option.none)

open Port in
/-- The first bit still takes a link once the whole pair has one, and is then bound after it. -/
theorem upper_link_first_pair :
    ∃ r, changed .pair [.connect 0 [] .pair, .connect 1 [.index 0] (.bit none)] = r ∧
      r.bindings = [⟨[], 0⟩, ⟨[0], 1⟩] ∧
      r.bindings.Pairwise fun a b => ¬b.path <+: a.path :=
  ⟨_, rfl, by decide, (upper_link_first .pair _ rfl).2.1⟩

open Port in
/-- The pair and its first bit both have links, which they cannot have the other way round. -/
theorem lower_link_joins_upper :
    (changed .pair [.connect 0 [] .pair, .connect 1 [.index 0] (.bit none)]).port.linksAt [] = [0] ∧
    (changed .pair [.connect 0 [] .pair, .connect 1 [.index 0] (.bit none)]).port.linksAt [0] = [1] ∧
    (changed .pair [.connect 1 [.index 0] (.bit none), .connect 0 [] .pair]).port.linksAt [] = [] ∧
    (changed .pair [.connect 1 [.index 0] (.bit none), .connect 0 [] .pair]).port.linksAt [0] = [1]
    := by decide

end TickCircuit
