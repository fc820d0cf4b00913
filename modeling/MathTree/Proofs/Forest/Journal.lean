import MathTree.Proofs.Forest.Listeners
import Mathlib.Logic.Function.Basic

/-!
# The journal

What the listeners of a node are told of it.  `Forest.Accounts` says of a change that it leaves none of
them behind: in each respect, the pairs of values that a listener is told lead from what the node had
before the change to what it has after it.  Some changes take several writes, with what they tell in
between, so `Forest.Accounted` keeps apart what a node has and what its listeners know of it.  Linking,
unlinking and counting leave no listener behind, nor does making nodes.
-/

namespace MathTree

variable {f g e : Forest} {m n p c : NodeId} {i : Nat} {l x : ListenerId} {aspect : Aspect}
  {before after : Datum}

/-! ### Chains of values -/

/-- Whether pairs of values lead from one value to another: each begins where the one before it
ended. -/
def Leads : Datum → List (Datum × Datum) → Datum → Prop
  | first, [], last => first = last
  | first, (before, after) :: pairs, last => first = before ∧ Leads after pairs last

theorem Leads.append {a b c : Datum} {l l' : List (Datum × Datum)} (h : Leads a l b)
    (h' : Leads b l' c) : Leads a (l ++ l') c := by
  induction l generalizing a with
  | nil =>
    have hab : a = b := h
    exact hab ▸ h'
  | cons pair l ih => exact ⟨h.1, ih h.2⟩

/-- What a notice tells a listener of a node in one respect: the value before and the value after. -/
def Notice.tells? (l : ListenerId) (n : NodeId) (aspect : Aspect) : Notice → Option (Datum × Datum)
  | .changed l' n' aspect' before after _ =>
    if l' = l ∧ n' = n ∧ aspect' = aspect then some (before, after) else none
  | .added .. | .removed .. => none

/-- What some notices tell a listener of a node in one respect. -/
def told (l : ListenerId) (n : NodeId) (aspect : Aspect) (notices : List Notice) :
    List (Datum × Datum) :=
  notices.filterMap (Notice.tells? l n aspect)

theorem told_append (notices notices' : List Notice) :
    told l n aspect (notices ++ notices') = told l n aspect notices ++ told l n aspect notices' :=
  List.filterMap_append

/-- A listener is told of a change as often as it is listed. -/
theorem told_changed {aspect' : Aspect} {k : Nat} (ls : List ListenerId) :
    told l n aspect' (ls.map fun x => .changed x m aspect before after k)
      = List.replicate (if m = n ∧ aspect = aspect' then ls.count l else 0) (before, after) := by
  induction ls with
  | nil => simp [told]
  | cons x ls ih =>
    unfold told at ih
    rw [told, List.map_cons, List.filterMap_cons, ih, List.count_cons, Notice.tells?]
    by_cases hx : x = l <;> by_cases hm : m = n ∧ aspect = aspect' <;>
      simp [hx, hm, List.replicate_succ]

namespace Forest

/-! ### What is told -/

theorem journal_announce : (f.announce n aspect before after).journal.toList
    = f.journal.toList ++
      (f.listeners n).map fun l => .changed l n aspect before after (f.childCount n) := by
  simp [announce, listeners]

theorem journal_announceAdded : (f.announceAdded n c).journal.toList
    = f.journal.toList ++ (f.listeners n).map fun l => .added l c (f.parent c) := by
  simp [announceAdded, listeners]

theorem journal_announceRemoved : (f.announceRemoved n c).journal.toList
    = f.journal.toList ++ (f.listeners n).map fun l => .removed l c (f.parent c) := by
  simp [announceRemoved, listeners]

theorem journal_foldl_modify (change : Record → Record) (ns : List NodeId) (f : Forest) :
    (ns.foldl (fun f n => f.modify n change) f).journal = f.journal := by
  induction ns generalizing f with
  | nil => rfl
  | cons n ns ih => exact ih _

theorem journal_anchorBelow (container : Option ContainerId) :
    (f.anchorBelow n container).journal = f.journal :=
  journal_foldl_modify _ _ f

theorem journal_hearBelow : (f.hearBelow n x).journal = f.journal := journal_foldl_modify _ _ f

theorem journal_unhearBelow : (f.unhearBelow n x).journal = f.journal := journal_foldl_modify _ _ f

theorem journal_adopt : (f.adopt p c).journal = f.journal := by
  have hfold (ls : List ListenerId) (f : Forest) :
      (ls.foldl (fun f x => f.hearBelow c x) f).journal = f.journal := by
    induction ls generalizing f with
    | nil => rfl
    | cons x ls ih => exact (ih _).trans journal_hearBelow
  rw [adopt, hfold, place]
  split_ifs
  · exact journal_anchorBelow _
  · rfl

theorem journal_orphan : (f.orphan c).journal = f.journal := journal_anchorBelow none

/-! ### What a node has -/

theorem datum_congr (hhead : g.head m = f.head n)
    (hparent : aspect = .parent → g.parent m = f.parent n) :
    g.datum m aspect = f.datum n aspect := by
  cases aspect with
  | parent => rw [datum, datum, hparent rfl]
  | _ => simp only [datum, kind, hhead]

theorem Alike.datum (h : f.Alike g) (n : NodeId) : g.datum n = f.datum n :=
  funext fun _ => datum_congr (h.head n) fun _ => h.parent n

theorem Reparented.datum {q : Option NodeId} (h : f.Reparented g c q) (hn : f.Has n)
    (hc : c ≠ .placeholder) : g.datum n
      = if c = n then Function.update (f.datum n) .parent (.ofNode? q) else f.datum n := by
  funext aspect
  have hparent := h.parent n
  split_ifs with hcn
  · rw [if_pos ⟨hcn.symm, hc, hcn ▸ hn⟩] at hparent
    by_cases ha : aspect = .parent
    · rw [ha, Function.update_self, Forest.datum, hparent]
    · rw [Function.update_of_ne ha]
      exact datum_congr (h.head n) fun he => absurd he ha
  · rw [if_neg fun he => hcn he.1.symm] at hparent
    exact datum_congr (h.head n) fun _ => hparent

/-! ### What listeners know -/

/-- Whether a listener hears of a node, and each listener of it is told but once. -/
structure Hears (f : Forest) (l : ListenerId) (n : NodeId) : Prop where
  mem : l ∈ f.listeners n
  once : (f.listeners n).Nodup

theorem Hears.has (h : f.Hears l n) : f.Has n := by
  by_contra hn
  have hl := h.mem
  rw [listeners_of_not_has hn] at hl
  cases hl

theorem Hears.congr (h : f.Hears l n) (hl : g.listeners n = f.listeners n) : g.Hears l n :=
  ⟨hl ▸ h.mem, hl ▸ h.once⟩

/-- Whether a listener of a node, which it still is, knows these data of the node: since the first
forest it was told pairs of values that lead from what the node had then to them. -/
structure Accounted (l : ListenerId) (n : NodeId) (f g : Forest) (d : Aspect → Datum) : Prop where
  hears : g.Hears l n
  leads : ∃ notices, g.journal.toList = f.journal.toList ++ notices ∧
    ∀ aspect, Leads (f.datum n aspect) (told l n aspect notices) (d aspect)

/-- Whether from one forest to the other a listener of a node comes to know what the node has. -/
def Accounts (l : ListenerId) (n : NodeId) (f g : Forest) : Prop :=
  f.Hears l n → Accounted l n f g (g.datum n)

section

variable {d : Aspect → Datum}

theorem accounted_refl (h : f.Hears l n) : Accounted l n f f (f.datum n) :=
  ⟨h, [], (List.append_nil _).symm, fun _ => rfl⟩

theorem Accounted.trans (h : Accounted l n e f (f.datum n)) (h' : Accounted l n f g d) :
    Accounted l n e g d := by
  obtain ⟨notices, hj, hleads⟩ := h.leads
  obtain ⟨notices', hj', hleads'⟩ := h'.leads
  refine ⟨h'.hears, notices ++ notices', ?_, fun aspect => ?_⟩
  · rw [hj', hj, List.append_assoc]
  · rw [told_append]
    exact (hleads aspect).append (hleads' aspect)

/-- More is told, of which nothing concerns the node. -/
theorem Accounted.append (h : Accounted l n f g d) (he : e.Hears l n) {notices : List Notice}
    (hj : e.journal.toList = g.journal.toList ++ notices)
    (htold : ∀ aspect, told l n aspect notices = []) : Accounted l n f e d := by
  obtain ⟨earlier, hearlier, hleads⟩ := h.leads
  refine ⟨he, earlier ++ notices, ?_, fun aspect => ?_⟩
  · rw [hj, hearlier, List.append_assoc]
  · rw [told_append, htold, List.append_nil]
    exact hleads aspect

theorem Accounted.silent (h : Accounted l n f g d) (he : e.Hears l n)
    (hj : e.journal = g.journal) : Accounted l n f e d :=
  h.append he (by rw [hj, List.append_nil]) fun _ => rfl

theorem Accounted.announceAdded (h : Accounted l n f g d) :
    Accounted l n f (g.announceAdded p c) d := by
  refine h.append (h.hears.congr listeners_announceAdded) journal_announceAdded fun aspect => ?_
  simp [told, Notice.tells?]

theorem Accounted.announceRemoved (h : Accounted l n f g d) :
    Accounted l n f (g.announceRemoved p c) d := by
  refine h.append (h.hears.congr listeners_announceRemoved) journal_announceRemoved fun aspect => ?_
  simp [told, Notice.tells?]

/-- An announcement takes its listeners from what they know to the value that it tells. -/
theorem Accounted.announce (h : Accounted l n f g d) (hbefore : m = n → d aspect = before) :
    Accounted l n f (g.announce m aspect before after)
      (if m = n then Function.update d aspect after else d) := by
  obtain ⟨notices, hj, hleads⟩ := h.leads
  have hj' : (g.announce m aspect before after).journal.toList = _ := journal_announce
  rw [hj, List.append_assoc] at hj'
  refine ⟨h.hears.congr (listeners_announce _ _ _), _, hj', fun aspect' => ?_⟩
  rw [told_append, told_changed]
  by_cases hm : m = n
  · subst hm
    have hcount : (g.listeners m).count l = 1 := List.count_eq_one_of_mem h.hears.once h.hears.mem
    by_cases ha : aspect = aspect'
    · subst ha
      simp only [and_self, if_true, hcount, Function.update_self]
      exact (hleads aspect).append ⟨hbefore rfl, rfl⟩
    · simp only [ha, and_false, if_false, if_true, Function.update_of_ne (Ne.symm ha),
        List.replicate_zero, List.append_nil]
      exact hleads aspect'
  · simp only [hm, false_and, if_false, List.replicate_zero, List.append_nil]
    exact hleads aspect'

theorem Accounted.announceIfChanged (h : Accounted l n f g d)
    (hbefore : m = n → d aspect = before) :
    Accounted l n f (g.announceIfChanged m aspect before after)
      (if m = n then Function.update d aspect after else d) := by
  unfold Forest.announceIfChanged
  split_ifs with hsame hm hm
  · rwa [← hsame, ← hbefore hm, Function.update_eq_self]
  · exact h
  · simpa only [if_pos hm] using h.announce hbefore
  · simpa only [if_neg hm] using h.announce hbefore

theorem Accounted.accounts (h : f.Hears l n → Accounted l n f g d)
    (hdata : f.Hears l n → g.datum n = d) : Accounts l n f g :=
  fun hl => hdata hl ▸ h hl

end

theorem Accounts.refl (f : Forest) : Accounts l n f f := accounted_refl

theorem Accounts.trans (h : Accounts l n e f) (h' : Accounts l n f g) : Accounts l n e g :=
  fun hl => (h hl).trans (h' (h hl).hears)

/-- Where the node and its listeners stay as they are, nothing has to be told. -/
theorem accounts_of_silent (hj : g.journal = f.journal)
    (hl : f.Hears l n → g.listeners n = f.listeners n)
    (hdatum : f.Hears l n → g.datum n = f.datum n) : Accounts l n f g :=
  Accounted.accounts (fun h => (accounted_refl h).silent (h.congr (hl h)) hj) hdatum

/-! ### Linking and unlinking -/

theorem accounts_settle (hfree : f.parent c = none) : Accounts l n f (f.settle p c) := by
  by_cases hc : c = .placeholder
  · rw [settle, if_pos hc]
    exact .refl f
  · have hr := reparented_settle f p c
    rw [settle_eq hc] at hr ⊢
    refine Accounted.accounts (fun h => Accounted.announce (d := f.datum n) ?_ ?_)
      fun h => hr.datum h.has hc
    · exact (accounted_refl h).silent
        ⟨mem_listeners_adopt.2 (.inl h.mem), nodup_listeners_adopt h.once⟩ journal_adopt
    · rintro rfl
      rw [datum, hfree]
      rfl

theorem accounts_release (hc : c ≠ .placeholder → f.parent c = some p) :
    Accounts l n f (f.release p c) := by
  by_cases hne : c = .placeholder
  · rw [release, if_pos hne]
    exact .refl f
  · have hr := reparented_release f p c
    rw [release_eq hne] at hr ⊢
    refine Accounted.accounts (fun h => Accounted.announce (d := f.datum n) ?_ ?_)
      fun h => hr.datum h.has hne
    · exact (accounted_refl h).silent (h.congr listeners_orphan) journal_orphan
    · rintro rfl
      rw [datum, hc hne]
      rfl

/-! ### Counting -/

theorem recount_of_lambda {k : Nat} (h : (f.head p).payload = .lambda k) :
    f.recount p = (f.setPayload p (.lambda (f.countChildren p (.qualifier .bvar)))).announceIfChanged
      p .boundCount (.count k) (.count (f.countChildren p (.qualifier .bvar))) := by
  rw [recount, h]

theorem recount_of_piecewise {k : Nat} {fallback : Bool}
    (h : (f.head p).payload = .piecewise k fallback) : f.recount p
      = ((f.setPayload p (.piecewise (f.countChildren p (.qualifier .piece))
            (f.countChildren p (.qualifier .otherwise) != 0))).announceIfChanged
          p .caseCount (.count k) (.count (f.countChildren p (.qualifier .piece)))).announceIfChanged
        p .fallback (.flag fallback) (.flag (f.countChildren p (.qualifier .otherwise) != 0)) := by
  rw [recount, h]

theorem recount_of_form (h : (f.head p).form ≠ .lambda) (h' : (f.head p).form ≠ .piecewise) :
    f.recount p = f := by
  unfold recount
  split <;> rename_i hpayload
  · rw [Head.form, hpayload] at h
    exact absurd rfl h
  · rw [Head.form, hpayload] at h'
    exact absurd rfl h'
  · rfl

theorem datum_recount_of_ne (hn : n ≠ p) : (f.recount p).datum n = f.datum n :=
  funext fun _ => datum_congr (by rw [head_recount, if_neg hn]) fun _ => parent_recount

theorem datum_recount_of_lambda {k : Nat} (h : (f.head n).payload = .lambda k) :
    (f.recount n).datum n = Function.update (f.datum n) .boundCount
      (.count (f.countChildren n (.qualifier .bvar))) := by
  have hhead : (f.recount n).head n = _ := head_recount.trans (if_pos rfl)
  funext aspect
  cases aspect <;> simp [datum, kind, hhead, parent_recount, h, Head.boundCount, Head.caseCount,
    Head.hasFallback, Payload.recounted, countChildren_eq_count]

theorem datum_recount_of_piecewise {k : Nat} {fallback : Bool}
    (h : (f.head n).payload = .piecewise k fallback) :
    (f.recount n).datum n = Function.update (Function.update (f.datum n) .caseCount
      (.count (f.countChildren n (.qualifier .piece)))) .fallback
      (.flag (f.countChildren n (.qualifier .otherwise) != 0)) := by
  have hhead : (f.recount n).head n = _ := head_recount.trans (if_pos rfl)
  funext aspect
  cases aspect <;> simp [datum, kind, hhead, parent_recount, h, Head.boundCount, Head.caseCount,
    Head.hasFallback, Payload.recounted, countChildren_eq_count]

/-- Counting tells the listeners of a node of each count that it changes. -/
theorem accounts_recount : Accounts l n f (f.recount p) := by
  have hsilent (payload : Payload) (h : f.Hears l n) :
      Accounted l n f (f.setPayload p payload) (f.datum n) :=
    (accounted_refl h).silent (h.congr (listeners_modify fun _ => rfl)) rfl
  cases hpayload : (f.head p).payload with
  | lambda k =>
    rw [recount_of_lambda hpayload]
    refine Accounted.accounts (fun h => (hsilent _ h).announceIfChanged ?_) fun h => ?_
    · rintro rfl
      simp only [datum, Head.boundCount, hpayload]
    · rw [← recount_of_lambda hpayload]
      split_ifs with hp
      · subst hp
        exact datum_recount_of_lambda hpayload
      · exact datum_recount_of_ne (Ne.symm hp)
  | piecewise k fallback =>
    rw [recount_of_piecewise hpayload]
    refine Accounted.accounts
      (fun h => ((hsilent _ h).announceIfChanged ?_).announceIfChanged ?_) fun h => ?_
    · rintro rfl
      simp only [datum, Head.caseCount, hpayload]
    · rintro rfl
      simp [datum, Head.hasFallback, hpayload]
    · rw [← recount_of_piecewise hpayload]
      split_ifs with hp
      · subst hp
        exact datum_recount_of_piecewise hpayload
      · exact datum_recount_of_ne (Ne.symm hp)
  | _ =>
    rw [recount_of_form] <;> first | exact .refl f | simp [Head.form, hpayload, Payload.form]

/-! ### Linking and unlinking nodes -/

theorem accounts_announceAdded : Accounts l n f (f.announceAdded p c) :=
  Accounted.accounts (fun h => (accounted_refl h).announceAdded) fun _ =>
    (alike_of_records rfl).datum n

theorem accounts_announceRemoved : Accounts l n f (f.announceRemoved p c) :=
  Accounted.accounts (fun h => (accounted_refl h).announceRemoved) fun _ =>
    (alike_of_records rfl).datum n

/-- That a node holds other children is told of the children. -/
theorem accounts_modify_children (change : List NodeId → List NodeId) :
    Accounts l n f (f.modify p fun r => { r with children := change r.children }) := by
  refine accounts_of_silent rfl (fun _ => listeners_modify fun _ => rfl) fun _ => ?_
  funext aspect
  refine datum_congr ?_ fun _ => ?_
  · rw [head, get_modify]
    split_ifs <;> rfl
  · rw [parent, get_modify]
    split_ifs <;> rfl

theorem accounts_link (hfree : f.parent c = none) : Accounts l n f (f.link p i c) := by
  have hparent : (f.hold p i c).parent c = none := by
    rw [← hfree, hold, parent, get_modify]
    split_ifs <;> rfl
  have hhold : Accounts l n f (f.hold p i c) :=
    accounts_modify_children (·.insertIdx i c)
  rw [link_eq]
  exact ((hhold.trans (accounts_settle hparent)).trans accounts_recount).trans
    accounts_announceAdded

theorem accounts_unlink (hc : c ≠ .placeholder → f.parent c = some p) :
    Accounts l n f (f.unlink p i c) := by
  have hlet : Accounts l n f (f.modify p fun r => { r with children := r.children.eraseIdx i }) :=
    accounts_modify_children (·.eraseIdx i)
  have hparent (hne : c ≠ .placeholder) :
      (f.modify p fun r => { r with children := r.children.eraseIdx i }).parent c = some p := by
    rw [← hc hne, parent, get_modify]
    split_ifs <;> rfl
  exact ((hlet.trans (accounts_release hparent)).trans accounts_recount).trans
    accounts_announceRemoved

theorem Linked.accounts_detach (h : f.Linked) : Accounts l n f (f.detach c) := by
  cases hp : f.parent c with
  | none =>
    rw [detach_of_parent_none hp]
    exact .refl f
  | some p =>
    obtain ⟨i, -, -, hd⟩ := h.detach_of_parent hp
    rw [hd]
    exact accounts_unlink fun _ => hp

/-! ### Making and freeing nodes -/

theorem accounts_plant {h : Head} : Accounts l n f (f.grow { head := h }).2 := by
  refine accounts_of_silent rfl (fun _ => listeners_plant) fun hl => ?_
  exact funext fun _ => datum_congr (by rw [head_plant, if_neg (ne_next_of_has hl.has)])
    fun _ => parent_plant

theorem listeners_eq_nil_of_mirrors {ns copies : List NodeId}
    (hcopies : List.Forall₂ f.Mirrors copies ns) :
    ∀ c ∈ copies, c ≠ .placeholder → f.listeners c = [] := by
  induction hcopies with
  | nil => simp
  | @cons c n copies ns hc _ ih =>
    intro d hd hne
    rcases List.mem_cons.1 hd with rfl | hd
    · unfold Mirrors at hc
      split_ifs at hc
      · exact absurd hc hne
      · exact hc.2.2.2.2.2
    · exact ih d hd hne

/-- The copies that get a parent have no listeners yet. -/
theorem accounts_graft {ns copies : List NodeId} (hcopies : List.Forall₂ f.Mirrors copies ns) :
    Accounts l n f (f.graft m copies) := by
  refine accounts_of_silent (journal_foldl_modify _ _ _) (fun _ => listeners_graft) fun hl => ?_
  have hcopy : ¬ (n ∈ copies ∧ n ≠ .placeholder) := fun hn => by
    have hmem := hl.mem
    rw [listeners_eq_nil_of_mirrors hcopies n hn.1 hn.2] at hmem
    cases hmem
  refine funext fun _ => datum_congr ?_ fun _ => ?_
  · rw [head_graft, if_neg (ne_next_of_has hl.has)]
  · rw [parent_graft hcopies, if_neg hcopy]

/-- A node may go that nobody hears of, nor of what it held. -/
theorem accounts_discard (hunheard : f.listeners m = [])
    (hbelow : ∀ c ∈ f.children m, f.listeners c = []) : Accounts l n f (f.discard m) := by
  refine Accounts.trans (f := f.loosen m) ?_ accounts_recount
  have hne (hl : f.Hears l n) : n ≠ m := by
    rintro rfl
    have hmem := hl.mem
    rw [hunheard] at hmem
    cases hmem
  have hnot (hl : f.Hears l n) : n ∉ f.children m := fun hn => by
    have hmem := hl.mem
    rw [hbelow n hn] at hmem
    cases hmem
  have hget (hl : f.Hears l n) : (f.loosen m).get n = f.get n := by
    rw [get_loosen, if_neg (hne hl), if_neg fun h => hnot hl h.1]
  refine accounts_of_silent ?_ (fun hl => ?_) fun hl => ?_
  · exact journal_foldl_modify _ _ f
  · rw [listeners, hget hl, listeners]
  · refine funext fun _ => datum_congr ?_ fun _ => ?_
    · rw [head, hget hl, head]
    · rw [parent, hget hl, parent]

/-! ### Being known -/

theorem isKnown_of_journal {notices : List Notice} (hk : f.isKnown n)
    (hj : g.journal.toList = f.journal.toList ++ notices) : g.isKnown n := by
  rw [isKnown, hj, List.any_append, ← isKnown, hk, Bool.true_or]

theorem isKnown_announceIfChanged (hk : f.isKnown n) :
    (f.announceIfChanged m aspect before after).isKnown n := by
  unfold announceIfChanged
  split_ifs
  · exact hk
  · exact isKnown_of_journal hk journal_announce

theorem isKnown_recount (hk : f.isKnown n) : (f.recount p).isKnown n := by
  have hset (payload : Payload) : (f.setPayload p payload).isKnown n := hk
  unfold recount
  split
  · exact isKnown_announceIfChanged (hset _)
  · exact isKnown_announceIfChanged (isKnown_announceIfChanged (hset _))
  · exact hk

/-- Whoever hears of a node that was linked in has been told of its parent. -/
theorem isKnown_link (hc : c ≠ .placeholder) (hl : l ∈ (f.link p i c).listeners c) :
    (f.link p i c).isKnown p := by
  rw [link_eq, listeners_announceAdded, listeners_recount] at hl
  refine isKnown_of_journal (isKnown_recount ?_) journal_announceAdded
  rw [settle_eq hc, listeners_announce] at hl
  rw [settle_eq hc, isKnown, journal_announce, List.any_append, List.any_map, Bool.or_eq_true]
  refine .inr (List.any_eq_true.2 ⟨l, hl, ?_⟩)
  simp [Notice.nodes, Datum.node?]

end Forest

end MathTree
