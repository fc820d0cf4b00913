import MathTree.Proofs.Action.Spread

/-!
# The journal of a run

Along a run that frees no node, a listener of a node that stays one is told all that becomes of the node:
in each respect, the pairs of values that it is told lead from what the node had at the start to what it
has at the end (`leads_of_along`).  What makes and moves nodes does so move by move (`Moves.accounts`);
what writes into a node tells of the one respect in which it changes.
-/

namespace MathTree

open Forest

variable {S : NodeId → Prop} {f g : Forest} {m n p c : NodeId} {l : ListenerId} {aspect : Aspect}
  {action : Action} {actions : List Action}

/-! ### What a head holds -/

/-- What a head holds in one respect: what a node has that has only this head. -/
def Head.holds (h : Head) (aspect : Aspect) : Datum :=
  Forest.datum { records := #[{ head := h }] } .placeholder aspect

section

variable (h : Head)

theorem Head.holds_withKind (kind : Kind) (ha : aspect ≠ .kind) :
    ({ h with kind := kind } : Head).holds aspect = h.holds aspect := by
  obtain ⟨_, strict, id, style, styleClass, payload⟩ := h
  cases aspect with
  | kind => exact absurd rfl ha
  | field field => cases field <;> rfl
  | boundCount | caseCount | fallback => cases payload <;> rfl
  | strict | parent => rfl

theorem Head.holds_withStrict (strict : Bool) (ha : aspect ≠ .strict) :
    ({ h with strict := strict } : Head).holds aspect = h.holds aspect := by
  obtain ⟨kind, _, id, style, styleClass, payload⟩ := h
  cases aspect with
  | strict => exact absurd rfl ha
  | field field => cases field <;> rfl
  | boundCount | caseCount | fallback => cases payload <;> rfl
  | kind | parent => rfl

variable {h} {h' : Head}

/-- An assignment writes its field, and no other. -/
theorem Head.holds_assign? {assignment : Assignment} (ha : h.assign? assignment = some h')
    (hne : aspect ≠ .field assignment.field) : h'.holds aspect = h.holds aspect := by
  obtain ⟨kind, strict, id, style, styleClass, payload⟩ := h
  cases assignment with
  | id | style | styleClass =>
    cases ha
    cases aspect with
    | field field => cases field <;> first | rfl | exact absurd rfl hne
    | _ => rfl
  | _ =>
    cases payload <;> cases ha <;>
      cases aspect with
      | field field => cases field <;> first | rfl | exact absurd rfl hne
      | _ => rfl

end

namespace Forest

/-! ### Moves -/

theorem Move.accounts (hf : f.Linked) (hm : f.Move S g) : Accounts l n f g := by
  cases hm with
  | plant => exact accounts_plant
  | graft _ hcopies => exact accounts_graft hcopies
  | @insert p c =>
    have hfree : (f.detach c).parent c = none := by rw [hf.parent_detach, if_pos rfl]
    exact hf.accounts_detach.trans (accounts_link hfree)
  | @replace p c old i hp _ _ hold =>
    have hold' (hne : old ≠ .placeholder) : (f.detach c).parent old = some p :=
      ((hf.detach c).parent_iff hne).2 (List.mem_of_getElem? hold)
    exact (hf.accounts_detach.trans (accounts_unlink hold')).trans
      (accounts_link (hf.parent_unlink_detach hp.1))
  | @remove p c i _ hi =>
    exact accounts_unlink fun hne => (hf.parent_iff hne).2 (List.mem_of_getElem? hi)
  | free _ _ _ hunheard hbelow => exact accounts_discard hunheard hbelow

theorem Moves.accounts (hf : f.Ready S) (hm : f.Moves S g) : Accounts l n f g := by
  induction hm with
  | refl => exact .refl f
  | tail hs hm ih => exact ih.trans (hm.accounts (hf.moves hs).linked)

/-! ### Values -/

theorem datum_eq_holds (ha : aspect ≠ .parent) : f.datum n aspect = (f.head n).holds aspect :=
  datum_congr rfl fun he => absurd he ha

section

variable (change : Head → Head)

/-- The forest in which a node has another head. -/
def rewrite (f : Forest) (m : NodeId) (change : Head → Head) : Forest :=
  f.modify m fun r => { r with head := change r.head }

theorem head_rewrite_self (hm : f.Has m) : (f.rewrite m change).head m = change (f.head m) := by
  rw [rewrite, head, get_modify, if_pos ⟨rfl, hm⟩, head]

/-- A write that changes a node in one respect. -/
theorem datum_rewrite (hm : f.Has m) (ha : aspect ≠ .parent)
    (hother : ∀ other, other ≠ aspect → (change (f.head m)).holds other = (f.head m).holds other) :
    (f.rewrite m change).datum n
      = if m = n then Function.update (f.datum n) aspect ((change (f.head m)).holds aspect)
        else f.datum n := by
  have hparent : (f.rewrite m change).parent n = f.parent n := by
    rw [rewrite, parent, get_modify]
    split_ifs <;> rfl
  funext other
  split_ifs with hmn
  · subst hmn
    by_cases ho : other = aspect
    · rw [ho, Function.update_self, datum_eq_holds ha, head_rewrite_self change hm]
    · rw [Function.update_of_ne ho]
      by_cases hp : other = .parent
      · rw [hp, datum, hparent, datum]
      · rw [datum_eq_holds hp, head_rewrite_self change hm, hother other ho, datum_eq_holds hp]
  · refine datum_congr ?_ fun _ => hparent
    rw [rewrite, head, get_modify_of_ne _ (Ne.symm hmn), head]

theorem accounted_rewrite (h : f.Hears l n) : Accounted l n f (f.rewrite m change) (f.datum n) :=
  (accounted_refl h).silent (h.congr (listeners_modify fun _ => rfl)) rfl

end

theorem accounts_setKind {kind : Kind} (hm : f.Has m) :
    Accounts l n f (f.after (.setKind m kind)) := by
  rw [after_map rfl, Edit.run_setKind]
  split_ifs
  · refine Accounted.accounts
      (fun h => (accounted_rewrite ({ · with kind := kind }) h).announceIfChanged ?_) fun _ => ?_
    · rintro rfl
      rfl
    · exact ((alike_announceIfChanged _ _ _ _ _).datum n).trans
        (datum_rewrite ({ · with kind := kind }) hm nofun fun _ => Head.holds_withKind _ kind)
  · exact .refl f

theorem accounts_setStrict {strict : Bool} (hm : f.Has m) :
    Accounts l n f (f.after (.setStrict m strict)) := by
  rw [after_map rfl, Edit.run_setStrict]
  split_ifs
  · exact .refl f
  · refine Accounted.accounts
      (fun h => (accounted_rewrite ({ · with strict := strict }) h).announceIfChanged ?_) fun _ => ?_
    · rintro rfl
      rfl
    · exact ((alike_announceIfChanged _ _ _ _ _).datum n).trans
        (datum_rewrite ({ · with strict := strict }) hm nofun fun _ => Head.holds_withStrict _ strict)

theorem accounts_assign {assignment : Assignment} (hm : f.Has m) :
    Accounts l n f (f.after (.assign m assignment)) := by
  rw [after_map rfl, Edit.run_assign]
  split_ifs
  · exact .refl f
  · cases hassign : (f.head m).assign? assignment with
    | none => exact .refl f
    | some h' =>
      refine Accounted.accounts
        (fun h => (accounted_rewrite (fun _ => h') h).announce ?_) fun _ => ?_
      · rintro rfl
        rfl
      · have hne : Aspect.field assignment.field ≠ .parent := nofun
        have hafter := datum_eq_holds (f := f.rewrite m fun _ => h') (n := m) hne
        rw [head_rewrite_self _ hm] at hafter
        refine ((alike_announce _ _ _ _ _).datum n).trans ?_
        refine (datum_rewrite (fun _ => h') hm hne fun _ => Head.holds_assign? hassign).trans ?_
        rw [← hafter]
        rfl

/-! ### Actions -/

/-- Whether an action frees a node. -/
def Frees (f : Forest) : Action → Prop
  | .drop n => n ≠ .placeholder ∧ f.parent n = none
  | _ => False

/-- An action that frees no node leaves no listener of a node behind that stays one. -/
theorem accounted_after (hf : f.Reachable) (ha : f.Admits action) (hfrees : ¬ f.Frees action)
    (hl : l ∈ f.listeners n) (hstill : l ∈ (f.after action).listeners n) :
    Accounted l n f (f.after action) ((f.after action).datum n) := by
  have hears : f.Hears l n := ⟨hl, hf.nodup_listeners n⟩
  have hstill : (f.after action).Hears l n := ⟨hstill, (hf.after ha).nodup_listeners n⟩
  have hone {m : NodeId} (h : action.nodes = [m]) : f.Has m := ha m (h ▸ List.mem_cons_self)
  -- what changes neither nodes nor the journal
  have hsilent {g : Forest} (halike : f.Alike g) (hj : g.journal = f.journal) (hg : g.Hears l n) :
      Accounted l n f g (g.datum n) :=
    halike.datum n ▸ (accounted_refl hears).silent hg hj
  by_cases hm : action.Rearranges
  · exact (moves_after hf.linked ha hm).accounts hf.linked.ready hears
  · cases action with
    | drop m =>
      have hsame : f.after (.drop m) = f := by
        rw [after_map rfl, Edit.run_drop]
        refine if_pos ?_
        by_contra hkeep
        obtain ⟨hne, hp⟩ := not_or.1 hkeep
        exact hfrees ⟨hne, by simpa using hp⟩
      rw [hsame]
      exact accounted_refl hears
    | setKind m kind => exact accounts_setKind (hone rfl) hears
    | setStrict m strict => exact accounts_setStrict (hone rfl) hears
    | assign m assignment => exact accounts_assign (hone rfl) hears
    | hear m x => exact hsilent (alike_hearBelow f m x) journal_hearBelow hstill
    | unhear m x => exact hsilent (alike_unhearBelow f m x) journal_unhearBelow hstill
    | openContainer level version => exact hsilent (alike_of_records rfl) rfl hstill
    | closeContainer container => exact hsilent (alike_of_records rfl) rfl hstill
    | anchor m container => exact hsilent (alike_anchorBelow f m _) (journal_anchorBelow _) hstill
    | unanchor m => exact hsilent (alike_anchorBelow f m _) (journal_anchorBelow _) hstill
    | _ => exact absurd trivial hm

theorem accounted_run (hf : f.Reachable)
    (ha : f.Along (fun f action => f.Admits action ∧ ¬ f.Frees action) actions)
    (hl : f.Throughout (fun f => l ∈ f.listeners n) actions) :
    Accounted l n f (f.run actions) ((f.run actions).datum n) := by
  induction actions generalizing f with
  | nil => exact accounted_refl ⟨hl, hf.nodup_listeners n⟩
  | cons action actions ih =>
    have hstill : l ∈ (f.after action).listeners n := by
      cases actions with
      | nil => exact hl.2
      | cons => exact hl.2.1
    exact (accounted_after hf ha.1.1 ha.1.2 hl.1 hstill).trans (ih (hf.after ha.1.1) ha.2 hl.2)

/-- Along a run that frees no node, and throughout which a listener hears of a node, what the listener
is told of the node leads in each respect from what the node had to what it has. -/
theorem leads_of_along (hf : f.Reachable)
    (ha : f.Along (fun f action => f.Admits action ∧ ¬ f.Frees action) actions)
    (hl : f.Throughout (fun f => l ∈ f.listeners n) actions) :
    ∃ notices, (f.run actions).journal.toList = f.journal.toList ++ notices ∧
      ∀ aspect, Leads (f.datum n aspect) (told l n aspect notices) ((f.run actions).datum n aspect) :=
  (accounted_run hf ha hl).leads

/-- Makes a `lambda` with a bound variable, and registers a listener on it. -/
def heardParameter : List Action := oneParameter ++ [.hear ⟨1⟩ ⟨0⟩]

/-- The name leaves its bound variable and becomes the body of the `lambda`. -/
theorem leads_of_along_body :
    let f := start.run heardParameter
    let actions := [.detach ⟨2⟩, .setBody ⟨1⟩ ⟨2⟩]
    f.Reachable ∧ f.Along (fun f action => f.Admits action ∧ ¬ f.Frees action) actions ∧
      f.Throughout (fun f => ⟨0⟩ ∈ f.listeners ⟨2⟩) actions ∧
      ∃ notices, (f.run actions).journal.toList = f.journal.toList ++ notices ∧
        Leads (.node ⟨3⟩) (told ⟨0⟩ ⟨2⟩ .parent notices) (.node ⟨1⟩) := by
  have hadmits : start.Along Admits heardParameter := by decide
  have hf := Reachable.start.run hadmits
  have ha : (start.run heardParameter).Along (fun f action => f.Admits action ∧ ¬ f.Frees action)
      [.detach ⟨2⟩, .setBody ⟨1⟩ ⟨2⟩] :=
    ⟨⟨by decide +kernel, id⟩, ⟨by decide +kernel, id⟩, trivial⟩
  have hl : (start.run heardParameter).Throughout (fun f => ⟨0⟩ ∈ f.listeners ⟨2⟩)
      [.detach ⟨2⟩, .setBody ⟨1⟩ ⟨2⟩] := by
    unfold Throughout Throughout Throughout
    decide +kernel
  obtain ⟨notices, hj, hleads⟩ := leads_of_along hf ha hl
  have hfirst : (start.run heardParameter).datum ⟨2⟩ .parent = .node ⟨3⟩ := by decide +kernel
  have hlast : ((start.run heardParameter).run [.detach ⟨2⟩, .setBody ⟨1⟩ ⟨2⟩]).datum ⟨2⟩ .parent
      = .node ⟨1⟩ := by
    decide +kernel
  have hparent := hleads .parent
  rw [hfirst, hlast] at hparent
  exact ⟨hf, ha, hl, notices, hj, hparent⟩

end Forest

end MathTree
