import TickCircuit.Proofs.Interface.Merge
import TickCircuit.Proofs.Port.Signal
/-!
Which values an interface accepts. Main statements: a sink that admits a source which is known down
to its bits accepts all that the source does (`accepts_of_admits`), and a merge accepts what both of
its sides accept (`accepts_merge`).
-/
namespace TickCircuit.Interface

/-- There is no `none` in the interface, at any depth. -/
inductive Full : Interface → Prop where
  | bit (l : Option String) : Full (.bit l)
  | any (l : Option String) : Full (.any l)
  | rest (l : Option String) {e : Interface} (element : Full e) : Full (.rest l e)
  | collection (l : Option String) {cs : List Interface} (children : ∀ c ∈ cs, Full c) :
    Full (.collection l cs)

/-- The interface is made of bits and collections alone. -/
inductive Concrete : Interface → Prop where
  | bit (l : Option String) : Concrete (.bit l)
  | collection (l : Option String) {cs : List Interface} (children : ∀ c ∈ cs, Concrete c) :
    Concrete (.collection l cs)

theorem Full.isNone {i : Interface} (h : i.Full) : i.isNone = false := by
  cases h <;> rfl

theorem Full.childAt {i c : Interface} (h : i.Full) {path : Path} (hc : i.childAt? path = some c) :
    c.Full := by
  induction path generalizing i with
  | nil =>
    cases hc
    exact h
  | cons k path ih =>
    obtain ⟨j, hj, hc⟩ := Option.bind_eq_some_iff.mp hc
    refine ih ?_ hc
    cases h with
    | bit l => cases hj
    | any l =>
      cases hj
      exact .any _
    | rest l element =>
      cases hj
      exact element
    | collection l children => exact children j (List.mem_of_getElem? hj)

theorem Concrete.childAt {i c : Interface} (h : i.Concrete) {path : Path}
    (hc : i.childAt? path = some c) : c.Concrete := by
  induction path generalizing i with
  | nil =>
    cases hc
    exact h
  | cons k path ih =>
    obtain ⟨j, hj, hc⟩ := Option.bind_eq_some_iff.mp hc
    refine ih ?_ hc
    cases h with
    | bit l => cases hj
    | collection l children => exact children j (List.mem_of_getElem? hj)

theorem accepts_of_isAny {i : Interface} (h : i.isAny) (v : Value) : i.accepts v = true := by
  cases i with
  | any l => rw [accepts]
  | _ => cases h

theorem accepts_of_isNone {i : Interface} (h : i.isNone) (v : Value) : i.accepts v = false := by
  cases i with
  | none l => cases v <;> rfl
  | _ => cases h

theorem accepts_of_isBit {i : Interface} (h : i.isBit) (v : Value) :
    i.accepts v = v.bit?.isSome := by
  cases i with
  | bit l => cases v <;> rfl
  | _ => cases h

/-- A sink without `none` accepts all that a source does which is known down to its bits and agrees
with it. -/
theorem Agree.accepts {sink source : Interface} (h : sink.Agree source) (hsink : sink.Full)
    (hsource : source.Concrete) {v : Value} (hv : source.accepts v = true) :
    sink.accepts v = true := by
  induction h generalizing v with
  | anyLeft l b => rw [Interface.accepts]
  | noneLeft l b => cases hsink
  | anyRight a l | noneRight a l | collectionRest l m | rest l m => cases hsource
  | bit l m => cases v <;> simp_all [Interface.accepts]
  | @collection l m as bs length _ ih =>
    cases hsink with
    | collection _ sinks =>
      cases hsource with
      | collection _ sources =>
        cases v with
        | bit l' b => simp [Interface.accepts] at hv
        | collection l' vs =>
          rw [Interface.accepts, acceptsAll_iff] at hv ⊢
          refine ⟨length.trans hv.1, fun k a w ha hw => ?_⟩
          have hlt : k < bs.length := length ▸ (List.getElem?_eq_some_iff.mp ha).1
          have hb := List.getElem?_eq_getElem hlt
          apply ih k a _ ha hb (sinks a (List.mem_of_getElem? ha)) (sources _ (List.getElem_mem hlt))
          exact hv.2 k _ w hb hw
  | @restCollection l m e cs _ ih =>
    cases hsink with
    | rest _ element =>
      cases hsource with
      | collection _ sources =>
        cases v with
        | bit l' b => simp [Interface.accepts] at hv
        | collection l' vs =>
          rw [Interface.accepts, acceptsAll_iff] at hv
          rw [Interface.accepts, List.all_eq_true]
          intro w hw
          obtain ⟨k, hk⟩ := List.getElem?_of_mem hw
          have hlt : k < cs.length := hv.1 ▸ (List.getElem?_eq_some_iff.mp hk).1
          have hmem := List.getElem_mem hlt
          exact ih _ hmem element (sources _ hmem) (hv.2 k _ w (List.getElem?_eq_getElem hlt) hk)

theorem accepts_of_admits {sink source : Interface} (hsink : sink.Full)
    (hsource : source.Concrete) (h : sink.admits source = true) {v : Value}
    (hv : source.accepts v = true) : sink.accepts v = true :=
  (agree_of_admits h).accepts hsink hsource hv

theorem length_of_acceptsAll {cs : List Interface} {vs : List Value}
    (h : acceptsAll cs vs = true) : cs.length = vs.length := (acceptsAll_iff.mp h).1

theorem acceptsAll_replicate (n : Nat) (e : Interface) (vs : List Value) :
    acceptsAll (List.replicate n e) vs = true ↔ n = vs.length ∧ vs.all e.accepts = true := by
  rw [acceptsAll_iff, List.length_replicate, List.all_eq_true]
  refine and_congr_right fun hn => ?_
  constructor
  · intro h v hv
    obtain ⟨k, hk⟩ := List.getElem?_of_mem hv
    have hlt : k < n := hn ▸ (List.getElem?_eq_some_iff.mp hk).1
    exact h k e v (List.getElem?_replicate_of_lt hlt) hk
  · intro h k c v hc hv
    rw [List.eq_of_mem_replicate (List.mem_of_getElem? hc)]
    exact h v (List.mem_of_getElem? hv)

theorem acceptsAll_iff_and {as bs ms : List Interface} (hb : bs.length = as.length)
    (hm : ms.length = as.length)
    (h : ∀ (k : Nat) a b m, as[k]? = some a → bs[k]? = some b → ms[k]? = some m →
      ∀ v, m.accepts v = true ↔ a.accepts v = true ∧ b.accepts v = true) (vs : List Value) :
    acceptsAll ms vs = true ↔ acceptsAll as vs = true ∧ acceptsAll bs vs = true := by
  -- wherever one of the three lists has an item, so have the others
  have hitem : ∀ {xs ys : List Interface} {k : Nat} {x}, ys.length = xs.length →
      xs[k]? = some x → ∃ y, ys[k]? = some y := fun hl hx =>
    ⟨_, List.getElem?_eq_getElem (hl ▸ (List.getElem?_eq_some_iff.mp hx).1)⟩
  simp only [acceptsAll_iff, hb, hm]
  constructor
  · rintro ⟨hl, hall⟩
    refine ⟨⟨hl, fun k a v ha hv => ?_⟩, hl, fun k b v hk hv => ?_⟩
    · obtain ⟨b, hk⟩ := hitem hb ha
      obtain ⟨m, hkm⟩ := hitem hm ha
      exact ((h k a b m ha hk hkm v).mp (hall k m v hkm hv)).1
    · obtain ⟨a, ha⟩ := hitem hb.symm hk
      obtain ⟨m, hkm⟩ := hitem hm ha
      exact ((h k a b m ha hk hkm v).mp (hall k m v hkm hv)).2
  · rintro ⟨⟨hl, hleft⟩, -, hright⟩
    refine ⟨hl, fun k m v hkm hv => ?_⟩
    obtain ⟨a, ha⟩ := hitem hm.symm hkm
    obtain ⟨b, hk⟩ := hitem hb ha
    exact (h k a b m ha hk hkm v).mpr ⟨hleft k a v ha hv, hright k b v hk hv⟩

theorem Merged.accepts_iff {a b m : Interface} (h : Merged a b m) (hb : b.Full) (v : Value) :
    m.accepts v = true ↔ a.accepts v = true ∧ b.accepts v = true := by
  induction h generalizing v with
  | any l b => simp [accepts]
  | keep h =>
    obtain h | h | h | ⟨ha, hbit⟩ := h
    · simp [accepts_of_isAny h]
    · simp [hb.isNone] at h
    · simp [accepts_of_isNone h]
    · simp [accepts_of_isBit ha, accepts_of_isBit hbit]
  | @collection l l' l'' as bs ms length count _ ih =>
    cases hb with
    | collection _ children =>
      cases v with
      | bit l b => simp [accepts]
      | collection l vs =>
        simp only [accepts]
        refine acceptsAll_iff_and length.symm count (fun k a b m ha hb hm => ?_) vs
        exact ih k a b m ha hb hm (children b (List.mem_of_getElem? hb))
  | @restCollection l l' l'' e cs ms count _ ih =>
    cases hb with
    | collection _ children =>
      cases v with
      | bit l b => simp [accepts]
      | collection l vs =>
        -- the rest stands for as many copies of its element as there are children
        have hparts : acceptsAll ms vs = true ↔
            acceptsAll (List.replicate cs.length e) vs = true ∧ acceptsAll cs vs = true := by
          refine acceptsAll_iff_and (by simp) (by simpa using count) (fun k a c m ha hc hm => ?_) vs
          rw [List.eq_of_mem_replicate (List.mem_of_getElem? ha)]
          exact ih k c m hc hm (children c (List.mem_of_getElem? hc))
        simp only [accepts, hparts, acceptsAll_replicate]
        exact ⟨fun h => ⟨h.1.2, h.2⟩, fun h => ⟨⟨length_of_acceptsAll h.2, h.1⟩, h.2⟩⟩
  | @collectionRest l l' l'' e cs ms count _ ih =>
    cases hb with
    | rest _ element =>
      cases v with
      | bit l b => simp [accepts]
      | collection l vs =>
        have hparts : acceptsAll ms vs = true ↔
            acceptsAll cs vs = true ∧ acceptsAll (List.replicate cs.length e) vs = true := by
          refine acceptsAll_iff_and (by simp) count (fun k c a m hc ha hm => ?_) vs
          rw [List.eq_of_mem_replicate (List.mem_of_getElem? ha)]
          exact ih k c m hc hm element
        simp only [accepts, hparts, acceptsAll_replicate]
        exact ⟨fun h => ⟨h.1, h.2.2⟩, fun h => ⟨h.1, length_of_acceptsAll h.1, h.2⟩⟩
  | rest l l' l'' _ ih =>
    cases hb with
    | rest _ element =>
      cases v with
      | bit l b => simp [accepts]
      | collection l vs =>
        simp only [accepts, List.all_eq_true, ih element]
        exact ⟨fun h => ⟨fun w hw => (h w hw).1, fun w hw => (h w hw).2⟩,
          fun h w hw => ⟨h.1 w hw, h.2 w hw⟩⟩

/-- Where nothing in the right side is `none`, a merge accepts a value exactly if both sides do. -/
theorem accepts_merge {a b m : Interface} (hb : b.Full) (h : a.merge b = .ok m) (v : Value) :
    m.accepts v = true ↔ a.accepts v = true ∧ b.accepts v = true :=
  (merged_of_merge h).accepts_iff hb v

def halfOpen (first : Interface) : Interface :=
  .collection Option.none [first, .rest (some "row") (.bit Option.none)]

def rows : Interface := .rest Option.none (.rest Option.none (.any Option.none))

/-- The first child has to be a row once the two are merged. -/
theorem accepts_merge_rows : rows.Full ∧
    (halfOpen (.any Option.none)).merge rows =
      .ok (halfOpen (.rest Option.none (.any Option.none))) ∧
    (halfOpen (.rest Option.none (.any Option.none))).accepts
      (.collection Option.none [.bits [], .bits [true]]) = true ∧
    (halfOpen (.any Option.none)).accepts
      (.collection Option.none [.high, .bits [true]]) = true ∧
    (halfOpen (.rest Option.none (.any Option.none))).accepts
      (.collection Option.none [.high, .bits [true]]) = false := by
  have hfull : rows.Full := .rest _ (.rest _ (.any _))
  have hmerge : (halfOpen (.any Option.none)).merge rows =
      .ok (halfOpen (.rest Option.none (.any Option.none))) := rfl
  refine ⟨hfull, hmerge, (accepts_merge hfull hmerge _).mpr ⟨rfl, rfl⟩, rfl, ?_⟩
  refine Bool.eq_false_iff.mpr fun h => ?_
  cases ((accepts_merge hfull hmerge _).mp h).2

end TickCircuit.Interface
