import Mathlib.Data.List.Nodup
import TickCircuit.Proofs.Port.Mirror
import TickCircuit.Proofs.Port.Signal
/-!
What a value written at an output port does to the links. Main statement: either the port refuses
the value and no link changes, or every link gets the part of the value at its own path and no link
changes that has none (`write_delivers`).
-/
namespace TickCircuit.Port

theorem linksBelow_eq_flatMap (subs : List Port) : linksBelow subs = subs.flatMap allLinks := by
  induction subs with
  | nil => rfl
  | cons q subs ih => rw [linksBelow, ih, List.flatMap_cons]

theorem path_unique {p : Port} (hn : p.allLinks.Nodup) {id : LinkId} {path π : Path}
    (h : id ∈ p.linksAt path) (hπ : id ∈ p.linksAt π) : path = π := by
  induction p generalizing path π with
  | mk d i ls subs ih =>
    rw [allLinks, List.nodup_append', linksBelow_eq_flatMap, List.nodup_flatMap] at hn
    obtain ⟨-, ⟨hsubs, hapart⟩, hroot⟩ := hn
    -- a link below the port is below one of its sub-ports, and not at the port itself
    have hbelow : ∀ {k : Nat} {rest : Path}, id ∈ (Port.mk d i ls subs).linksAt (k :: rest) →
        ∃ q, subs[k]? = some q ∧ id ∈ q.linksAt rest ∧ id ∉ ls := by
      intro k rest hk
      rw [linksAt_cons] at hk
      cases hq : subs[k]? with
      | none => simp [hq] at hk
      | some q =>
        rw [hq, Option.elim_some] at hk
        refine ⟨q, rfl, hk, fun hid => hroot hid ?_⟩
        exact List.mem_flatMap.mpr ⟨q, List.mem_of_getElem? hq, mem_allLinks.mpr ⟨rest, hk⟩⟩
    cases path with
    | nil =>
      cases π with
      | nil => rfl
      | cons j π =>
        obtain ⟨q, -, -, hid⟩ := hbelow hπ
        exact absurd h hid
    | cons k path =>
      obtain ⟨q, hq, hid, hnot⟩ := hbelow h
      cases π with
      | nil => exact absurd hπ hnot
      | cons j π =>
        obtain ⟨r, hr, hid', -⟩ := hbelow hπ
        obtain ⟨hk, rfl⟩ := List.getElem?_eq_some_iff.mp hq
        obtain ⟨hj, rfl⟩ := List.getElem?_eq_some_iff.mp hr
        have hmem := mem_allLinks.mpr ⟨path, hid⟩
        have hmem' := mem_allLinks.mpr ⟨π, hid'⟩
        rw [List.pairwise_iff_getElem] at hapart
        obtain hlt | rfl | hlt := Nat.lt_trichotomy k j
        · exact absurd hmem' (hapart k j hk hj hlt hmem)
        · have hq := List.getElem_mem hk
          rw [ih _ hq (hsubs _ hq) hid hid']
        · exact absurd hmem (hapart j k hj hk hlt hmem')

theorem mem_delivery_iff {p : Port} (hn : p.allLinks.Nodup) {id : LinkId} {path : Path}
    (h : id ∈ p.linksAt path) (v w : Value) : (id, w) ∈ p.delivery v ↔ v.sub? path = some w := by
  rw [mem_delivery]
  constructor
  · intro hx
    obtain ⟨π, hπ, hw⟩ := hx
    rwa [path_unique hn h hπ]
  · intro hw
    exact ⟨path, h, hw⟩

theorem get?_deliver {p : Port} (hn : p.allLinks.Nodup) {id : LinkId} {path : Path}
    (h : id ∈ p.linksAt path) (v : Value) (t : LinkTable) :
    (t.writeEach (p.delivery v)).get? id =
      (t.get? id).map fun l => { l with current := (v.sub? path).or l.current } := by
  rw [LinkTable.get?_writeEach]
  simp only [LinkTable.written_eq (mem_delivery_iff hn h v)]

/-- A value that the port refuses reaches no link. Of one that it accepts, a link gets the part at
its own path, with the label that the part has; and a link that has no part of it, or is not
attached, stays as it is. The last values stay in any case. -/
theorem write_delivers {p : Port} (hp : p.Reachable .output) (hn : p.allLinks.Nodup) (v : Value)
    (t : LinkTable) :
    (p.interface.accepts v = false →
      write v t p = (t, .error (.type (.valueMismatch v p.interface)))) ∧
    (p.interface.accepts v = true → ∃ t', write v t p = (t', .ok ()) ∧ t'.stale = t.stale ∧
      (∀ path id w, id ∈ p.linksAt path → v.sub? path = some w →
        t'.get? id = (t.get? id).map fun l => { l with current := some w }) ∧
      ∀ id, (∀ path, id ∈ p.linksAt path → v.sub? path = none) → t'.get? id = t.get? id) := by
  refine ⟨fun h => write_eq_of_not_accepts hp.shaped h t, fun h => ?_⟩
  refine ⟨_, write_eq hp.shaped h t, LinkTable.stale_writeEach _ _, ?_, ?_⟩
  · intro path id w hid hw
    rw [get?_deliver hn hid, hw]
    rfl
  · intro id hid
    refine LinkTable.get?_writeEach_of_not_mem (fun w hw => ?_) t
    obtain ⟨path, hpath, hw⟩ := mem_delivery.mp hw
    rw [hid path hpath] at hw
    cases hw

/-- An output that gives a row of bits, then data of any type. One link has the whole value, one
the third bit of the row, one the second part of the data and one the first part of that. -/
def tapped : Port :=
  [.attach [] 0, .attach [0, 2] 1, .attach [1, 1] 2, .attach [1, 1, 0] 3].foldl revised
    (new .output (.collection none [.rest none (.bit none), .any none]))

/-- There is no third bit, and the second part of the data is a bit itself. -/
theorem write_delivers_tapped :
    let v : Value := .collection none [.bits [true, false],
      .collection none [.low, .bit (some "carry") true]]
    let end_ : Endpoint := ⟨.boundary, []⟩
    let t : LinkTable := ⟨(List.range 5).map (·, .seeded end_ end_ (.any none) (some .low)), 5⟩
    tapped.Reachable .output ∧ tapped.allLinks = [0, 1, 2, 3] ∧
    tapped.interface.accepts v = true ∧ tapped.interface.accepts .high = false ∧
    write .high t tapped = (t, .error (.type (.valueMismatch .high tapped.interface))) ∧
    ∃ t', write v t tapped = (t', .ok ()) ∧
      [0, 1, 2, 3, 4].map (fun id => (t'.get? id).bind (·.current)) =
        [some v, some .low, some (.bit (some "carry") true), some .low, some .low] ∧
      t'.stale = t.stale := by
  intro v end_ t
  have hp : tapped.Reachable .output := (Reachable.new _).foldl_revised _
  have hall : tapped.allLinks = [0, 1, 2, 3] := by decide +kernel
  have hn : tapped.allLinks.Nodup := by
    rw [hall]
    decide
  have haccepts : tapped.interface.accepts v = true := by decide +kernel
  have hrefuses : tapped.interface.accepts .high = false := by decide +kernel
  obtain ⟨t', ht, hstale, hpart, hkept⟩ := (write_delivers hp hn v t).2 haccepts
  refine ⟨hp, hall, haccepts, hrefuses, (write_delivers hp hn .high t).1 hrefuses, t', ht, ?_,
    hstale⟩
  have hnone : ∀ id path, id ∈ tapped.linksAt path → v.sub? path = none →
      ∀ π, id ∈ tapped.linksAt π → v.sub? π = none := by
    intro id path hid hv π hπ
    rwa [path_unique hn hπ hid]
  have h0 := hpart [] 0 _ (by decide +kernel) rfl
  have h2 := hpart [1, 1] 2 _ (by decide +kernel) rfl
  have h1 := hkept 1 (hnone 1 [0, 2] (by decide +kernel) rfl)
  have h3 := hkept 3 (hnone 3 [1, 1, 0] (by decide +kernel) rfl)
  have hfree : 4 ∉ tapped.allLinks := by
    rw [hall]
    decide
  have h4 := hkept 4 fun π hπ => absurd (mem_allLinks.mpr ⟨π, hπ⟩) hfree
  simp only [List.map_cons, List.map_nil, h0, h1, h2, h3, h4]
  decide +kernel

end TickCircuit.Port
