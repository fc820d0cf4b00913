import MathTree.Forest.Action
import Mathlib.Tactic.SplitIfs

/-!
# What an elementary change does to heads and links

Most of what is written when a node is linked in or let go concerns listeners, containers and
notices.  `Forest.Alike` says that two forests agree on all else: the heads of the nodes, their
parents and their children.  With it the effect of `link` and `unlink` on the heads and the links
comes down to one statement for each (`rehung_link`, `rehung_unlink`).
-/

namespace MathTree

/-! ### Counts of children -/

/-- The payload of a node with children of these kinds, once they have been counted. -/
def Payload.recounted (payload : Payload) (kinds : List Kind) : Payload :=
  match payload with
  | .lambda _ => .lambda (kinds.count (.qualifier .bvar))
  | .piecewise _ _ =>
    .piecewise (kinds.count (.qualifier .piece)) (kinds.count (.qualifier .otherwise) != 0)
  | payload => payload

@[simp]
theorem Payload.form_recounted (payload : Payload) (kinds : List Kind) :
    (payload.recounted kinds).form = payload.form := by
  cases payload <;> rfl

@[simp]
theorem Payload.recounted_recounted (payload : Payload) (kinds kinds' : List Kind) :
    (payload.recounted kinds).recounted kinds' = payload.recounted kinds' := by
  cases payload <;> rfl

/-- The head of a node with children of these kinds, once they have been counted. -/
def Head.recounted (h : Head) (kinds : List Kind) : Head :=
  { h with payload := h.payload.recounted kinds }

section

variable (h : Head) (kinds : List Kind)

@[simp]
theorem Head.kind_recounted : (h.recounted kinds).kind = h.kind := rfl

@[simp]
theorem Head.strict_recounted : (h.recounted kinds).strict = h.strict := rfl

@[simp]
theorem Head.payload_recounted : (h.recounted kinds).payload = h.payload.recounted kinds := rfl

@[simp]
theorem Head.recounted_recounted (kinds' : List Kind) :
    (h.recounted kinds).recounted kinds' = h.recounted kinds' := by
  simp [Head.recounted]

@[simp]
theorem Head.form_recounted : (h.recounted kinds).form = h.form := h.payload.form_recounted kinds

@[simp]
theorem Head.isLeaf_recounted : (h.recounted kinds).isLeaf = h.isLeaf := by
  simp [Head.isLeaf]

@[simp]
theorem Head.capacity_recounted : (h.recounted kinds).capacity = h.capacity := by
  simp [Head.capacity]

/-- A leaf counts nothing. -/
theorem Head.recounted_of_isLeaf (hl : h.isLeaf) : h.recounted kinds = h := by
  obtain ⟨kind, strict, id, style, styleClass, payload⟩ := h
  cases payload <;> first | rfl | cases hl

/-- A count is not a field. -/
@[simp]
theorem Head.datum?_recounted (field : Field) :
    (h.recounted kinds).datum? field = h.datum? field := by
  obtain ⟨kind, strict, id, style, styleClass, payload⟩ := h
  cases payload <;> cases field <;> rfl

end

namespace Forest

/-! ### Forests that are alike -/

/-- The forests have the same nodes, with the same heads and links, and the same placeholder. -/
structure Alike (f g : Forest) : Prop where
  size : g.records.size = f.records.size
  head : ∀ n, g.head n = f.head n
  parent : ∀ n, g.parent n = f.parent n
  children : ∀ n, g.children n = f.children n
  placeholder : g.get .placeholder = f.get .placeholder

variable {f g : Forest} {m n p c : NodeId} {i : Nat}

theorem Alike.refl (f : Forest) : f.Alike f := ⟨rfl, fun _ => rfl, fun _ => rfl, fun _ => rfl, rfl⟩

theorem Alike.trans {e : Forest} (h : e.Alike f) (h' : f.Alike g) : e.Alike g where
  size := h'.size.trans h.size
  head n := (h'.head n).trans (h.head n)
  parent n := (h'.parent n).trans (h.parent n)
  children n := (h'.children n).trans (h.children n)
  placeholder := h'.placeholder.trans h.placeholder

theorem Alike.has_iff (h : f.Alike g) : g.Has n ↔ f.Has n := by
  rw [Has, h.size, Has]

theorem Alike.kind (h : f.Alike g) (n : NodeId) : g.kind n = f.kind n := by
  rw [Forest.kind, h.head, Forest.kind]

theorem alike_of_records (h : g.records = f.records) : f.Alike g := by
  have hg : g.get = f.get := by
    funext n
    simp [get, h]
  refine ⟨by rw [h], fun n => ?_, fun n => ?_, fun n => ?_, by rw [hg]⟩
  · rw [Forest.head, hg, Forest.head]
  · rw [Forest.parent, hg, Forest.parent]
  · rw [Forest.children, hg, Forest.children]

/-- Whether a change of records spares heads and links. -/
def Spares (change : Record → Record) : Prop :=
  ∀ r, (change r).head = r.head ∧ (change r).parent = r.parent ∧ (change r).children = r.children

theorem alike_modify {change : Record → Record} (h : Spares change) (hn : n ≠ .placeholder) :
    f.Alike (f.modify n change) := by
  refine ⟨by simp [modify], fun m => ?_, fun m => ?_, fun m => ?_, ?_⟩
  · simp only [head, get_modify]
    split_ifs <;> simp [h _]
  · simp only [parent, get_modify]
    split_ifs <;> simp [h _]
  · simp only [children, get_modify]
    split_ifs <;> simp [h _]
  · rw [get_modify, if_neg fun e => hn e.1.symm]

theorem get_modify_of_ne (change : Record → Record) (h : m ≠ n) :
    (f.modify n change).get m = f.get m := by
  rw [get_modify, if_neg fun e => h e.1]

theorem has_foldl_modify (change : Record → Record) (l : List NodeId) (f : Forest) :
    (l.foldl (fun f n => f.modify n change) f).Has m ↔ f.Has m := by
  induction l generalizing f with
  | nil => rfl
  | cons n l ih => rw [List.foldl_cons, ih, has_modify]

/-- A change that is made again has no further effect, so it does not matter how often a node is
listed. -/
theorem get_foldl_modify (change : Record → Record) (h : ∀ r, change (change r) = change r)
    (l : List NodeId) (f : Forest) :
    (l.foldl (fun f n => f.modify n change) f).get m
      = if m ∈ l ∧ f.Has m then change (f.get m) else f.get m := by
  induction l generalizing f with
  | nil => simp
  | cons n l ih =>
    rw [List.foldl_cons, ih, get_modify]
    simp only [has_modify, List.mem_cons]
    by_cases hm : m = n
    · subst hm
      by_cases hf : f.Has m <;> simp [hf, h]
    · simp [hm]

theorem alike_foldl_modify {change : Record → Record} (h : Spares change) :
    ∀ (l : List NodeId) (f : Forest), (∀ n ∈ l, n ≠ .placeholder) →
      f.Alike (l.foldl (fun f n => f.modify n change) f)
  | [], f, _ => .refl f
  | n :: l, f, hl => by
      have hn := hl n List.mem_cons_self
      exact (alike_modify h hn).trans
        (alike_foldl_modify h l _ fun m hm => hl m (List.mem_cons_of_mem _ hm))

theorem ne_placeholder_of_mem_members (h : m ∈ f.members n) : m ≠ .placeholder := by
  simpa using (List.mem_filter.1 h).2

theorem alike_modifyBelow (change : Record → Record) (h : Spares change) (f : Forest)
    (n : NodeId) : f.Alike (f.modifyBelow n change) :=
  alike_foldl_modify h _ f fun _ => ne_placeholder_of_mem_members

theorem alike_anchorBelow (f : Forest) (n : NodeId) (container : Option ContainerId) :
    f.Alike (f.anchorBelow n container) :=
  alike_modifyBelow ({ · with container := container }) (fun _ => ⟨rfl, rfl, rfl⟩) f n

theorem spares_hear (listener : ListenerId) : Spares (·.hear listener) := fun r => by
  simp only [Record.hear]
  split_ifs <;> exact ⟨rfl, rfl, rfl⟩

theorem alike_hearBelow (f : Forest) (n : NodeId) (listener : ListenerId) :
    f.Alike (f.hearBelow n listener) :=
  alike_modifyBelow (·.hear listener) (spares_hear listener) f n

theorem alike_unhearBelow (f : Forest) (n : NodeId) (listener : ListenerId) :
    f.Alike (f.unhearBelow n listener) :=
  alike_modifyBelow (·.unhear listener) (fun _ => ⟨rfl, rfl, rfl⟩) f n

theorem alike_foldl_hearBelow (n : NodeId) :
    ∀ (l : List ListenerId) (f : Forest),
      f.Alike (l.foldl (fun f listener => f.hearBelow n listener) f)
  | [], f => .refl f
  | listener :: l, f => (alike_hearBelow f n listener).trans (alike_foldl_hearBelow n l _)

theorem alike_announce (f : Forest) (n : NodeId) (aspect : Aspect) (before after : Datum) :
    f.Alike (f.announce n aspect before after) :=
  alike_of_records rfl

theorem alike_announceIfChanged (f : Forest) (n : NodeId) (aspect : Aspect)
    (before after : Datum) : f.Alike (f.announceIfChanged n aspect before after) := by
  unfold announceIfChanged
  split_ifs
  · exact .refl f
  · exact alike_announce f n aspect before after

/-! ### A new parent -/

/-- The forests are alike, but that a node other than the placeholder now has this parent. -/
structure Reparented (f g : Forest) (c : NodeId) (p : Option NodeId) : Prop where
  size : g.records.size = f.records.size
  head : ∀ n, g.head n = f.head n
  parent : ∀ n, g.parent n = if n = c ∧ c ≠ .placeholder ∧ f.Has c then p else f.parent n
  children : ∀ n, g.children n = f.children n
  placeholder : g.get .placeholder = f.get .placeholder

theorem reparented_placeholder (f : Forest) (p : Option NodeId) :
    f.Reparented f .placeholder p := by
  refine ⟨rfl, fun _ => rfl, fun _ => ?_, fun _ => rfl, rfl⟩
  rw [if_neg fun h => h.2.1 rfl]

theorem Alike.reparented {p : Option NodeId} (hc : c ≠ .placeholder)
    (h : (f.modify c ({ · with parent := p })).Alike g) : f.Reparented g c p := by
  refine ⟨by simp [h.size, modify], fun n => ?_, fun n => ?_, fun n => ?_, ?_⟩
  · rw [h.head, Forest.head, get_modify]
    split_ifs <;> rfl
  · rw [h.parent, Forest.parent, get_modify]
    simp only [ne_eq, hc, not_false_eq_true, true_and]
    split_ifs <;> rfl
  · rw [h.children, Forest.children, get_modify]
    split_ifs <;> rfl
  · rw [h.placeholder, get_modify_of_ne _ hc.symm]

theorem reparented_settle (f : Forest) (p c : NodeId) : f.Reparented (f.settle p c) c (some p) := by
  unfold settle
  split_ifs with hc
  · subst hc
    exact reparented_placeholder f _
  · refine Alike.reparented hc ?_
    refine Alike.trans (Alike.trans ?_ (alike_foldl_hearBelow c _ _)) (alike_announce _ _ _ _ _)
    split_ifs
    · exact alike_anchorBelow _ _ _
    · exact .refl _

theorem reparented_release (f : Forest) (p c : NodeId) : f.Reparented (f.release p c) c none := by
  unfold release
  split_ifs with hc
  · subst hc
    exact reparented_placeholder f _
  · exact Alike.reparented hc ((alike_anchorBelow _ _ _).trans (alike_announce _ _ _ _ _))

/-! ### New counts -/

theorem countChildren_eq_count (f : Forest) (n : NodeId) (kind : Kind) :
    f.countChildren n kind = ((f.children n).map f.kind).count kind := by
  rw [countChildren, List.count, List.countP_map]
  exact List.countP_congr fun _ _ => by simp

/-- Counting only writes the payload, which is the one that the children call for. -/
theorem alike_recount (f : Forest) (n : NodeId) :
    (f.setPayload n ((f.head n).payload.recounted ((f.children n).map f.kind))).Alike
      (f.recount n) := by
  unfold recount
  cases hp : (f.head n).payload with
  | lambda before =>
    simp only [Payload.recounted, countChildren_eq_count]
    exact alike_announceIfChanged _ _ _ _ _
  | piecewise cases fallback =>
    simp only [Payload.recounted, countChildren_eq_count]
    exact (alike_announceIfChanged _ _ _ _ _).trans (alike_announceIfChanged _ _ _ _ _)
  | _ =>
    -- nothing is counted, and the payload that is written is the old one
    have hget (m : NodeId) : (f.setPayload n (f.head n).payload).get m = f.get m := by
      rw [setPayload, get_modify]
      split_ifs with h
      · rw [h.1]
        rfl
      · rfl
    rw [hp] at hget
    simp only [Payload.recounted]
    refine ⟨by simp [setPayload, modify], fun m => ?_, fun m => ?_, fun m => ?_, (hget _).symm⟩
    · rw [head, ← hget, head]
    · rw [parent, ← hget, parent]
    · rw [children, ← hget, children]

theorem size_recount : (f.recount n).records.size = f.records.size := by
  simp [(alike_recount f n).size, setPayload, modify]

theorem head_recount : (f.recount n).head m
    = if m = n then (f.head n).recounted ((f.children n).map f.kind) else f.head m := by
  rw [(alike_recount f n).head, setPayload, head, get_modify]
  by_cases hm : m = n
  · subst hm
    by_cases hf : f.Has m
    · simp [hf, head, Head.recounted]
    · simp only [hf, and_false, if_false, if_true, head, get_of_not_has f hf]
      rfl
  · simp [hm, head]

theorem children_recount : (f.recount n).children m = f.children m := by
  rw [(alike_recount f n).children, setPayload, children, get_modify]
  split_ifs <;> rfl

theorem parent_recount : (f.recount n).parent m = f.parent m := by
  rw [(alike_recount f n).parent, setPayload, parent, get_modify]
  split_ifs <;> rfl

theorem get_recount_placeholder (h : n ≠ .placeholder) :
    (f.recount n).get .placeholder = f.get .placeholder := by
  rw [(alike_recount f n).placeholder, setPayload, get_modify_of_ne _ h.symm]

/-! ### Linking and unlinking -/

/-- What is left of a link or its end once listeners, containers and notices are put aside: a node
holds other children and has been counted again, and one node has another parent. -/
structure Rehung (f g : Forest) (p : NodeId) (l : List NodeId) (c : NodeId) (q : Option NodeId) :
    Prop where
  size : g.records.size = f.records.size
  head : ∀ n, g.head n = if n = p then (f.head p).recounted (l.map f.kind) else f.head n
  parent : ∀ n, g.parent n = if n = c ∧ c ≠ .placeholder ∧ f.Has c then q else f.parent n
  children : ∀ n, g.children n = if n = p then l else f.children n
  placeholder : p ≠ .placeholder → g.get .placeholder = f.get .placeholder

/-- Both writers change the children, then the parent, then the counts. -/
theorem Reparented.rehung (change : List NodeId → List NodeId) {q : Option NodeId}
    (hp : f.Has p)
    (h : (f.modify p fun r => { r with children := change r.children }).Reparented g c q) :
    f.Rehung (g.recount p) p (change (f.children p)) c q := by
  have hhead (n : NodeId) : g.head n = f.head n := by
    rw [h.head, Forest.head, get_modify]
    split_ifs <;> rfl
  have hchildren (n : NodeId) :
      g.children n = if n = p then change (f.children p) else f.children n := by
    rw [h.children, Forest.children, get_modify]
    by_cases hn : n = p
    · simp [hn, hp, Forest.children]
    · simp [hn, Forest.children]
  refine ⟨by simp [size_recount, h.size, modify], fun n => ?_, fun n => ?_, fun n => ?_,
    fun hne => ?_⟩
  · rw [head_recount, hhead, hhead, hchildren, if_pos rfl]
    have hkind : g.kind = f.kind := funext fun m => by rw [Forest.kind, hhead, Forest.kind]
    rw [hkind]
  · rw [parent_recount, h.parent, Forest.parent, get_modify]
    simp only [has_modify, Forest.parent]
    split_ifs <;> rfl
  · rw [children_recount, hchildren]
  · rw [get_recount_placeholder hne, h.placeholder, get_modify_of_ne _ hne.symm]

theorem Rehung.of_alike {e : Forest} {l : List NodeId} {q : Option NodeId}
    (h : e.Rehung f p l c q) (h' : f.Alike g) : e.Rehung g p l c q where
  size := h'.size.trans h.size
  head n := (h'.head n).trans (h.head n)
  parent n := (h'.parent n).trans (h.parent n)
  children n := (h'.children n).trans (h.children n)
  placeholder hp := h'.placeholder.trans (h.placeholder hp)

theorem rehung_link (hp : f.Has p) (i : Nat) (c : NodeId) :
    f.Rehung (f.link p i c) p ((f.children p).insertIdx i c) c (some p) := by
  unfold link
  exact ((reparented_settle _ p c).rehung (·.insertIdx i c) hp).of_alike
    (alike_of_records rfl)

theorem rehung_unlink (hp : f.Has p) (i : Nat) (c : NodeId) :
    f.Rehung (f.unlink p i c) p ((f.children p).eraseIdx i) c none := by
  unfold unlink
  exact ((reparented_release _ p c).rehung (·.eraseIdx i) hp).of_alike
    (alike_of_records rfl)

end Forest

end MathTree
