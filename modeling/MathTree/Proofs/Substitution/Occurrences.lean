import MathTree.Proofs.Action.Kinds
import MathTree.Proofs.Forest.Listeners

/-!
# Occurrences of a name

The identifiers of a name below a node are looked for among the children that are shown, and not in
bound variables.  `Forest.occurrences` lists them in the order in which they are met, each once
(`Linked.nodup_occurrences`), and `Forest.Exposes` says which nodes are met at all
(`Linked.mem_occurrences_iff`).
-/

namespace MathTree

open Forest

variable {f : Forest} {m n c d p : NodeId} {h : Head} {name : String} {kinds : List Kind}

/-! ### Heads -/

/-- Whether a node is an identifier of a name.  One that is lenient and has none goes by the empty
name. -/
def Head.Names (name : String) (h : Head) : Prop := h.kind = .name ∧ h.name = .ok name

instance (name : String) (h : Head) : Decidable (h.Names name) :=
  inferInstanceAs (Decidable (_ ∧ _))

@[simp]
theorem Head.name_recounted : (h.recounted kinds).name = h.name := by
  obtain ⟨kind, strict, id, style, styleClass, payload⟩ := h
  cases payload <;> rfl

@[simp]
theorem Head.names_recounted : (h.recounted kinds).Names name ↔ h.Names name := by
  rw [Names, kind_recounted, name_recounted, Names]

theorem Head.Sound.isLeaf_of_kind_name (hs : h.Sound) (hkind : h.kind = .name) : h.isLeaf := by
  have hform : h.form = .ofKind h.kind := hs.form_eq (by rw [hkind]; decide)
  rw [isLeaf, hform, hkind]
  rfl

namespace Forest

/-! ### Nodes strictly below others -/

/-- Whether a node stands below another, not being it. -/
def Below (f : Forest) (c n : NodeId) : Prop := Relation.TransGen f.ChildOf c n

namespace Linked

variable (hf : f.Linked)
include hf

theorem below_of_mem_children (hc : c ∈ f.children n) (hne : c ≠ .placeholder) : f.Below c n :=
  .single ((hf.parent_iff hne).2 hc)

theorem below_of_under (hc : f.Under c m) (hm : m ∈ f.children n) (hne : m ≠ .placeholder) :
    f.Below c n :=
  .tail' hc ((hf.parent_iff hne).2 hm)

/-- Nothing stands below the placeholder, and that below nothing. -/
theorem ne_placeholder_of_below (hc : f.Below c n) : c ≠ .placeholder ∧ n ≠ .placeholder := by
  obtain ⟨p, hp, -⟩ := Relation.TransGen.head'_iff.1 hc
  obtain ⟨d, -, hd⟩ := Relation.TransGen.tail'_iff.1 hc
  exact ⟨hf.ne_placeholder_of_parent hp, hf.ne_placeholder_of_mem_children (hf.mem_of_parent hd)⟩

theorem below_of_below (hc : f.Below c m) (hm : m ∈ f.children n) : f.Below c n :=
  hf.below_of_under hc.to_reflTransGen hm (hf.ne_placeholder_of_below hc).2

/-- What stands below a node stands under one of its children. -/
theorem exists_child_of_below (hc : f.Below c n) :
    ∃ m ∈ f.children n, m ≠ .placeholder ∧ f.Under c m := by
  obtain ⟨m, hcm, hmn⟩ := Relation.TransGen.tail'_iff.1 hc
  exact ⟨m, hf.mem_of_parent hmn, hf.ne_placeholder_of_parent hmn, hcm⟩

/-- Nothing stands under two children of a node. -/
theorem eq_of_under (hm : m ∈ f.children n) (hd : d ∈ f.children n) (hmne : m ≠ .placeholder)
    (hdne : d ≠ .placeholder) (hcm : f.Under c m) (hcd : f.Under c d) : m = d := by
  have hparent {a : NodeId} (ha : a ∈ f.children n) (hne : a ≠ .placeholder) : f.ChildOf a n :=
    (hf.parent_iff hne).2 ha
  have hunique : Relator.RightUnique f.ChildOf := fun a b b' hb hb' =>
    Option.some.inj (hb.symm.trans hb')
  -- a child that stands below another child would stand under their parent, and that below itself
  have hapart {a b : NodeId} (ha : a ∈ f.children n) (hb : b ∈ f.children n)
      (hane : a ≠ .placeholder) (hbne : b ≠ .placeholder) (hab : f.Under a b) : a = b := by
    rcases Relation.ReflTransGen.cases_head hab with rfl | ⟨q, hq, hqb⟩
    · rfl
    · cases hunique hq (hparent ha hane)
      exact absurd (Relation.TransGen.tail' hqb (hparent hb hbne)) (hf.acyclic n)
  rcases Relation.ReflTransGen.total_of_right_unique hunique hcm hcd with hmd | hdm
  · exact hapart hm hd hmne hdne hmd
  · exact (hapart hd hm hdne hmne hdm).symm

theorem below_iff_mem_members (hn : f.Has n) : f.Below c n ↔ c ∈ f.members n ∧ c ≠ n := by
  rw [hf.mem_members_iff hn]
  constructor
  · intro hc
    refine ⟨⟨(hf.ne_placeholder_of_below hc).1, hc.to_reflTransGen⟩, ?_⟩
    rintro rfl
    exact hf.acyclic c hc
  · rintro ⟨⟨-, hc⟩, hne⟩
    exact (Relation.reflTransGen_iff_eq_or_transGen.1 hc).resolve_left (Ne.symm hne)

end Linked

/-! ### Occurrences -/

/-- What is found of a name at a child, once it is known what is found deeper. -/
def found (f : Forest) (name : String) (c : NodeId) (deeper : List NodeId) : List NodeId :=
  if f.kind c = .qualifier .bvar then []
  else if (f.head c).Names name then [c]
  else deeper

/-- The identifiers of a name below a node, in order, as far as they are shown and not in a bound
variable. -/
def occurrences (f : Forest) (name : String) (n : NodeId) : List NodeId :=
  (f.spine n).para fun p below =>
    (below.take (f.childCount p)).flatMap fun (child, deeper) => f.found name child.label deeper

/-- Whether a node is shown below another and not in a bound variable.  A bound variable is itself
shown. -/
inductive Exposes (f : Forest) : NodeId → NodeId → Prop
  | shown {n c : NodeId} (hc : c ∈ f.shown n) : Exposes f n c
  | deeper {n m c : NodeId} (hm : m ∈ f.shown n) (hbound : f.kind m ≠ .qualifier .bvar)
    (hc : Exposes f m c) : Exposes f n c

theorem mem_children_of_mem_shown (hc : c ∈ f.shown n) : c ∈ f.children n := List.mem_of_mem_take hc

theorem shown_of_children_nil (hn : f.children n = []) : f.shown n = [] := by
  rw [Forest.shown, hn, List.take_nil]

/-- Nothing is found but identifiers of the name, the child itself or others deeper. -/
theorem mem_found_iff {deeper : List NodeId} : d ∈ f.found name c deeper ↔
    f.kind c ≠ .qualifier .bvar ∧
      ((f.head c).Names name ∧ d = c ∨ ¬ (f.head c).Names name ∧ d ∈ deeper) := by
  unfold found
  split_ifs with hbound hnames
  · simp [hbound]
  · simp [hbound, hnames]
  · simp [hbound, hnames]

namespace Linked

variable (hf : f.Linked)
include hf

theorem label_spine (hn : f.Has n) : (f.spine n).label = n := by
  rw [hf.spine_eq hn]
  rfl

theorem occurrences_eq (name : String) (hn : f.Has n) : f.occurrences name n
    = (f.shown n).flatMap fun c => f.found name c (f.occurrences name c) := by
  rw [occurrences, hf.spine_eq hn, Rose.para_node, List.map_map, ← List.map_take, List.flatMap_map,
    Forest.shown]
  refine List.flatMap_congr fun c hc => ?_
  have hlabel : (f.spine c).label = c := hf.label_spine (hf.has_of_mem (List.mem_of_mem_take hc))
  change f.found name (f.spine c).label (f.occurrences name c) = _
  rw [hlabel]

theorem occurrences_of_children_nil (name : String) (hn : f.Has n) (hnil : f.children n = []) :
    f.occurrences name n = [] := by
  rw [hf.occurrences_eq name hn, shown_of_children_nil hnil, List.flatMap_nil]

theorem mem_occurrences (hn : f.Has n) : d ∈ f.occurrences name n ↔
    ∃ c ∈ f.shown n, d ∈ f.found name c (f.occurrences name c) := by
  rw [hf.occurrences_eq name hn, List.mem_flatMap]

theorem names_of_mem_occurrences (hn : f.Has n) (hc : c ∈ f.occurrences name n) :
    (f.head c).Names name := by
  refine hf.below_induction (P := fun n => c ∈ f.occurrences name n → (f.head c).Names name)
    (fun n hn ih hc => ?_) hn hc
  obtain ⟨m, hm, hc⟩ := (hf.mem_occurrences hn).1 hc
  rcases (mem_found_iff.1 hc).2 with ⟨hnames, rfl⟩ | ⟨-, hc⟩
  · exact hnames
  · exact ih m (mem_children_of_mem_shown hm) hc

/-- An identifier of the name that is shown is found. -/
theorem mem_occurrences_of_names (hn : f.Has n) (hc : c ∈ f.shown n)
    (hnames : (f.head c).Names name) : c ∈ f.occurrences name n := by
  have hbound : f.kind c ≠ .qualifier .bvar := by
    rw [Forest.kind, hnames.1]
    decide
  exact (hf.mem_occurrences hn).2 ⟨c, hc, mem_found_iff.2 ⟨hbound, .inl ⟨hnames, rfl⟩⟩⟩

/-- The placeholder has no name. -/
theorem ne_placeholder_of_names (hc : (f.head c).Names name) : c ≠ .placeholder := by
  rintro rfl
  rw [hf.head_placeholder] at hc
  cases hc.1

theorem below_of_mem_occurrences (hn : f.Has n) (hc : c ∈ f.occurrences name n) :
    f.Below c n := by
  have hne := hf.ne_placeholder_of_names (hf.names_of_mem_occurrences hn hc)
  refine hf.below_induction (P := fun n => c ∈ f.occurrences name n → f.Below c n)
    (fun n hn ih hc => ?_) hn hc
  obtain ⟨m, hm, hc⟩ := (hf.mem_occurrences hn).1 hc
  have hmem := mem_children_of_mem_shown hm
  rcases (mem_found_iff.1 hc).2 with ⟨-, rfl⟩ | ⟨-, hc⟩
  · exact hf.below_of_mem_children hmem hne
  · exact hf.below_of_below (ih m hmem hc) hmem

/-- What is found at a child stands under it. -/
theorem under_of_mem_found (hc : f.Has c) (hd : d ∈ f.found name c (f.occurrences name c)) :
    f.Under d c := by
  rcases (mem_found_iff.1 hd).2 with ⟨-, rfl⟩ | ⟨-, hd⟩
  · exact .refl
  · exact (hf.below_of_mem_occurrences hc hd).to_reflTransGen

/-- Nothing is found at the placeholder. -/
theorem ne_placeholder_of_mem_found (hd : d ∈ f.found name c (f.occurrences name c)) :
    c ≠ .placeholder := by
  rintro rfl
  rcases (mem_found_iff.1 hd).2 with ⟨hnames, -⟩ | ⟨-, hd⟩
  · exact hf.ne_placeholder_of_names hnames rfl
  · rw [hf.occurrences_of_children_nil name hf.has_placeholder hf.children_placeholder] at hd
    cases hd

/-- Children that are not the placeholder are listed once. -/
theorem pairwise_children (n : NodeId) : (f.children n).Pairwise fun a b =>
    a ≠ .placeholder → b ≠ .placeholder → a ≠ b := by
  have hnodup : ((f.children n).filter (· ≠ .placeholder)).Nodup := by
    refine List.nodup_iff_count_le_one.2 fun c => ?_
    by_cases hc : c = .placeholder
    · rw [List.count_eq_zero.2 (by simp [hc])]
      exact Nat.zero_le 1
    · exact Nat.le_trans (List.filter_sublist.count_le c) (hf.once n hc)
  simpa using List.pairwise_filter.1 hnodup

/-- No identifier is met twice. -/
theorem nodup_occurrences (name : String) (hn : f.Has n) : (f.occurrences name n).Nodup := by
  refine hf.below_induction (P := fun n => (f.occurrences name n).Nodup) (fun n hn ih => ?_) hn
  rw [hf.occurrences_eq name hn, List.nodup_flatMap]
  refine ⟨fun c hc => ?_, ?_⟩
  · unfold found
    split_ifs
    · exact List.nodup_nil
    · exact List.nodup_singleton c
    · exact ih c (mem_children_of_mem_shown hc)
  · have hpairs : (f.shown n).Pairwise fun a b =>
        a ≠ .placeholder → b ≠ .placeholder → a ≠ b :=
      (hf.pairwise_children n).sublist (List.take_sublist _ _)
    refine (List.Pairwise.and_mem.1 hpairs).imp fun {a b} ⟨ha, hb, hab⟩ d hda hdb => ?_
    have ha' := mem_children_of_mem_shown ha
    have hb' := mem_children_of_mem_shown hb
    have hane := hf.ne_placeholder_of_mem_found hda
    have hbne := hf.ne_placeholder_of_mem_found hdb
    have hua := hf.under_of_mem_found (hf.has_of_mem ha') hda
    have hub := hf.under_of_mem_found (hf.has_of_mem hb') hdb
    exact hab hane hbne (hf.eq_of_under ha' hb' hane hbne hua hub)

section

variable (hsound : f.Sound)
include hsound

theorem children_of_names (hc : (f.head c).Names name) : f.children c = [] :=
  hf.leaf ((hsound c).isLeaf_of_kind_name hc.1)

/-- The occurrences of a name are the identifiers of the name that are exposed. -/
theorem mem_occurrences_iff (hn : f.Has n) :
    c ∈ f.occurrences name n ↔ (f.head c).Names name ∧ f.Exposes n c := by
  refine hf.below_induction (P := fun n => c ∈ f.occurrences name n ↔
    (f.head c).Names name ∧ f.Exposes n c) (fun n hn ih => ?_) hn
  constructor
  · intro hc
    obtain ⟨m, hm, hcm⟩ := (hf.mem_occurrences hn).1 hc
    obtain ⟨hbound, ⟨hnames, rfl⟩ | ⟨-, hcm⟩⟩ := mem_found_iff.1 hcm
    · exact ⟨hnames, .shown hm⟩
    · obtain ⟨hnames, hc⟩ := (ih m (mem_children_of_mem_shown hm)).1 hcm
      exact ⟨hnames, .deeper hm hbound hc⟩
  · rintro ⟨hnames, hc⟩
    cases hc with
    | shown hc => exact hf.mem_occurrences_of_names hn hc hnames
    | @deeper _ m _ hm hbound hc =>
      refine (hf.mem_occurrences hn).2
        ⟨m, hm, mem_found_iff.2 ⟨hbound, .inr ⟨fun hm' => ?_, ?_⟩⟩⟩
      · -- an identifier has no children
        have hnil := shown_of_children_nil (hf.children_of_names hsound hm')
        cases hc with
        | shown hc =>
          rw [hnil] at hc
          cases hc
        | deeper hd =>
          rw [hnil] at hd
          cases hd
      · exact (ih m (mem_children_of_mem_shown hm)).2 ⟨hnames, hc⟩

end

end Linked

end Forest

end MathTree
