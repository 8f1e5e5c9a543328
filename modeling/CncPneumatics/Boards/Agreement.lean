import CncPneumatics.Boards.Valves
import CncPneumatics.Hub.Steady
/-!
# The hub agrees with the controller

A demand that lasts reaches the valves. When the wire is clean and the
controller keeps sending one command, the hub follows it as soon as the
grace period of the command before it is over, and then the valves are
those that the controller demands.
-/

namespace CncPneumatics

open Asx

namespace Boards

variable {fuel : ℕ} {s s₁ : State} {h h₁ h₂ g₁ g₂ : List (State × Event)} {p q : State × Event}
  {cmd : Opcode}

/-- Where nothing is altered, everything that is is noticed. -/
theorem noticed_of_clean (hclean : ∀ h', h' <+: h → flips h' = 0) :
    Noticed (fun _ => true) h := fun h' hh' _ _ _ => hclean h' hh'

/-- The steps of the hub in which it handles a command. -/
theorem ofHub_of_handles (hp : handles p = some cmd) :
    ∃ e, ofHub [p] = [(p.1.hub, e)] ∧ Hub.handled (p.1.hub, e) = some cmd := by
  obtain ⟨r, hr, hhandled⟩ := Option.bind_eq_some_iff.mp hp
  obtain ⟨e, he, rfl⟩ := Option.map_eq_some_iff.mp hr
  exact ⟨e, project_singleton_some he, hhandled⟩

/-- **Only what is sent is handled**, from a time on at which nothing was
on its way. -/
theorem handled_eq_of_sent (hr₁ : Run (Boards.step fuel) start h₁ s₁)
    (hr₂ : Run (Boards.step fuel) s₁ h₂ s) (hclean : ∀ h', h' <+: h₁ ++ h₂ → flips h' = 0)
    (hinflight : inflight s₁ = []) (hqueued : Hub.pendingMessages s₁.hub = [])
    (hsame : ∀ c ∈ h₂.filterMap sent, c = cmd) :
    ∀ r ∈ ofHub h₂, ∀ c, Hub.handled r = some c → c = cmd := by
  intro r hr c hc
  have hsub := handled_sublist hr₁ hr₂ (noticed_of_clean hclean)
  rw [hinflight, hqueued, List.filter_nil, List.nil_append, List.nil_append] at hsub
  refine hsame c (hsub.subset ?_)
  exact List.mem_filter.mpr ⟨List.mem_filterMap.mpr ⟨r, hr, hc⟩, rfl⟩

/-- Messages come less than two seconds apart. -/
def Frequent (before after : List (Hub.State × Hub.Event)) : Prop :=
  ∀ g r g', after = g ++ r :: g' → (Hub.handled r).isSome = true →
    ∀ m, Hub.messagedAt (before ++ g) = some m → Hub.timeOf r < m + 2000

/-- One message after another, with none between them. -/
theorem frequent_of_two {before after : List (Hub.State × Hub.Event)} {r r' : Hub.State × Hub.Event}
    (hr : Hub.isMessage r = true) (hnone : ∀ q ∈ after, Hub.handled q = none)
    (hlt : Hub.timeOf r' < Hub.timeOf r + 2000) : Frequent (before ++ [r]) (after ++ [r']) := by
  intro g q g' hsplit hq m hm
  have hno : ∀ q ∈ after, Hub.isMessage q = false := fun q hq => by
    rw [Hub.isMessage, hnone q hq]
    rfl
  -- the one that is handled is the last
  rcases List.eq_nil_or_concat g' with rfl | ⟨k, r'', rfl⟩
  · obtain ⟨rfl, hlast⟩ := List.append_inj' hsplit rfl
    obtain rfl := (List.cons.inj hlast).1
    obtain ⟨p, hp, hmem⟩ := lastWhere_append_cons before after hr
    have hp' : p = r := hmem.resolve_right fun hin => by
      have := (lastWhere_eq_some hp).2
      rw [hno p hin] at this
      cases this
    rw [Hub.messagedAt, List.append_assoc, List.singleton_append, hp, hp'] at hm
    rw [← Option.some.inj hm]
    exact hlt
  · have hin : after = g ++ q :: k := by
      have hassoc : after ++ [r'] = (g ++ q :: k) ++ [r''] := by rw [hsplit]; simp
      exact (List.append_inj' hassoc rfl).1
    rw [hnone q (by rw [hin]; simp)] at hq
    cases hq

/-- The hub follows the only command that is sent. -/
theorem hub_follows (hr₁ : Run (Boards.step fuel) start h₁ s₁)
    (hr₂ : Run (Boards.step fuel) s₁ (g₁ ++ p :: g₂ ++ [q]) s)
    (hb : Hub.Bounded (ofHub (h₁ ++ (g₁ ++ p :: g₂ ++ [q]))))
    (hclean : ∀ h', h' <+: h₁ ++ (g₁ ++ p :: g₂ ++ [q]) → flips h' = 0)
    (hinflight : inflight s₁ = []) (hqueued : Hub.pendingMessages s₁.hub = [])
    (hsame : ∀ c ∈ (g₁ ++ p :: g₂ ++ [q]).filterMap sent, c = cmd)
    (hvalid : Hub.isValid cmd = true) (hp : (handles p).isSome = true)
    (hq : (handles q).isSome = true)
    (hfrequent : Frequent (ofHub (h₁ ++ g₁ ++ [p])) (ofHub (g₂ ++ [q])))
    (hgrace : p.1.hub.timer.counter + Hub.noNewCommandGracePeriod < q.1.hub.timer.counter) :
    s.hub.currentCmd = cmd ∧ ∀ v ∈ Hub.valves,
      pinLevel s.hub.pins v = true ↔ Hub.valveOf cmd = some v := by
  have heq := handled_eq_of_sent hr₁ hr₂ hclean hinflight hqueued hsame
  have hrun := run_hub (hr₁.trans hr₂)
  obtain ⟨cp, hcp⟩ := Option.isSome_iff_exists.mp hp
  obtain ⟨cq, hcq⟩ := Option.isSome_iff_exists.mp hq
  obtain ⟨ep, hop, hhp⟩ := ofHub_of_handles hcp
  obtain ⟨eq, hoq, hhq⟩ := ofHub_of_handles hcq
  -- the history of the hub
  have hafter : ofHub (g₂ ++ [q]) = ofHub g₂ ++ [(q.1.hub, eq)] := by
    rw [ofHub_append, hoq]
  have hbefore : ofHub (h₁ ++ g₁ ++ [p]) = ofHub (h₁ ++ g₁) ++ [(p.1.hub, ep)] := by
    rw [ofHub_append, hop]
  have hparts : ofHub (h₁ ++ (g₁ ++ p :: g₂ ++ [q])) =
      (ofHub (h₁ ++ g₁) ++ (p.1.hub, ep) :: ofHub g₂) ++ [(q.1.hub, eq)] := by
    have hlist : h₁ ++ (g₁ ++ p :: g₂ ++ [q]) = (h₁ ++ g₁ ++ [p]) ++ (g₂ ++ [q]) := by simp
    rw [hlist, ofHub_append, hbefore, hafter]
    simp
  have hmem : ∀ r ∈ (p.1.hub, ep) :: ofHub g₂ ++ [(q.1.hub, eq)],
      r ∈ ofHub (g₁ ++ p :: g₂ ++ [q]) := by
    have hlist : g₁ ++ p :: g₂ ++ [q] = g₁ ++ ([p] ++ (g₂ ++ [q])) := by simp
    have hsplit : ofHub (g₁ ++ p :: g₂ ++ [q]) =
        ofHub g₁ ++ ((p.1.hub, ep) :: ofHub g₂ ++ [(q.1.hub, eq)]) := by
      rw [hlist, ofHub_append, ofHub_append, hop, hafter]
      simp
    intro r hr
    rw [hsplit]
    exact List.mem_append_right _ hr
  obtain rfl : cp = cmd := heq _ (hmem _ (by simp)) _ hhp
  obtain rfl : cq = cp := heq _ (hmem _ (by simp)) _ hhq
  rw [hparts] at hrun hb
  obtain ⟨hrun', hstep⟩ := hrun.of_snoc
  have hsteady : Hub.Steady cq (ofHub (h₁ ++ g₁) ++ [(p.1.hub, ep)]) (ofHub g₂) := by
    refine ⟨fun r hr c hc => heq r (hmem r (by simp [hr])) c hc, fun g r g' hsplit hr m hm => ?_⟩
    refine hfrequent g r (g' ++ [(q.1.hub, eq)]) (by rw [hafter, hsplit]; simp) hr m ?_
    rw [hbefore]
    exact hm
  have hfollows : Hub.Follows cq p.1.hub.timer.counter
      (ofHub (h₁ ++ g₁) ++ (p.1.hub, ep) :: ofHub g₂) q.1.hub := by
    rcases Hub.follows_of_steady hhp hvalid hrun' hb.of_concat hsteady with h | ⟨m, hm, hle⟩
    · exact h
    · -- messages do not lapse before `q`
      have hlt := hfrequent (ofHub g₂) (q.1.hub, eq) [] hafter (by rw [hhq]; rfl) m (by
        rw [hbefore]
        simpa using hm)
      exact absurd hlt (Nat.not_lt.mpr hle)
  obtain ⟨a, S, K, hinv⟩ := Hub.inv_of_run hrun' hb.of_concat
  have hsettled : ∀ hub, Hub.step fuel q.1.hub eq = some hub → hub.currentCmd = cq := by
    intro hub hs
    cases Hub.steps_of_step hs with
    | traffic hcol hs' =>
      refine hfollows.settled hinv ?_ hs' ?_ hvalid
      · rw [← hinv.refines.counter]
        exact hgrace
      · rw [Hub.handled_of_collect _ hcol] at hhq
        exact Option.some.inj hhq
    | _ => cases hhq
  have hcmd := hsettled s.hub hstep
  exact ⟨hcmd, hcmd ▸ (Hub.agree_of_run hrun).shows⟩

/-- The command that opens a valve, or none, is the only one that is sent
for it. -/
theorem eq_of_valveOf {c c' : Opcode} (hc : c ∈ Controller.sentCommands)
    (hc' : c' ∈ Controller.sentCommands) (heq : Hub.valveOf c = Hub.valveOf c') : c = c' := by
  have hall : (Controller.sentCommands.all fun c => Controller.sentCommands.all fun c' =>
      !(Hub.valveOf c == Hub.valveOf c') || c == c') = true := by decide
  have h := List.all_eq_true.mp (List.all_eq_true.mp hall c hc) c' hc'
  rw [heq, beq_self_eq_true, Bool.not_true, Bool.false_or] at h
  exact eq_of_beq h

theorem isValid_of_sent {c : Opcode} (hc : c ∈ Controller.sentCommands) : Hub.isValid c = true := by
  have hall : Controller.sentCommands.all Hub.isValid = true := by decide
  exact List.all_eq_true.mp hall c hc

/-- What is sent in a part of a run is sent for a demand. -/
theorem demands_of_mem {c : Opcode} {d : Option ℕ} (hr₁ : Run (Boards.step fuel) start h₁ s₁)
    (hr₂ : Run (Boards.step fuel) s₁ h₂ s)
    (hdemand : ∀ r ∈ h₂, (sent r).isSome = true → demands r.1.controller = d)
    (hc : c ∈ h₂.filterMap sent) : c ∈ Controller.sentCommands ∧ Hub.valveOf c = d := by
  have hr := hr₁.trans hr₂
  refine ⟨mem_sentCommands hr (by rw [List.filterMap_append]; exact List.mem_append_right _ hc), ?_⟩
  obtain ⟨r, hmem, hsent⟩ := List.mem_filterMap.mp hc
  have hd := hdemand r hmem (by rw [hsent]; rfl)
  obtain ⟨k₁, k₂, rfl⟩ := List.append_of_mem hmem
  rw [← List.append_assoc] at hr
  exact (demands_of_sent hr hsent).trans hd

/-- **The valves agree with the controller.** Say nothing is on its way at
some time, from then on the controller demands one and the same valve, or
none, whenever it sends, and nothing is altered. When the hub has handled
a command in the step `p`, and messages come less than two seconds apart
from there on, then after a message that it handles more than the grace
period later, in the step `q`, the open valve is the one demanded. -/
theorem valves_agree_with_demand {d : Option ℕ} (hr₁ : Run (Boards.step fuel) start h₁ s₁)
    (hr₂ : Run (Boards.step fuel) s₁ (g₁ ++ p :: g₂ ++ [q]) s)
    (hb : Hub.Bounded (ofHub (h₁ ++ (g₁ ++ p :: g₂ ++ [q]))))
    (hclean : ∀ h', h' <+: h₁ ++ (g₁ ++ p :: g₂ ++ [q]) → flips h' = 0)
    (hinflight : inflight s₁ = []) (hqueued : Hub.pendingMessages s₁.hub = [])
    (hdemand : ∀ r ∈ g₁ ++ p :: g₂ ++ [q], (sent r).isSome = true → demands r.1.controller = d)
    (hp : (handles p).isSome = true) (hq : (handles q).isSome = true)
    (hfrequent : Frequent (ofHub (h₁ ++ g₁ ++ [p])) (ofHub (g₂ ++ [q])))
    (hgrace : p.1.hub.timer.counter + Hub.noNewCommandGracePeriod < q.1.hub.timer.counter) :
    ∀ v ∈ Hub.valves, pinLevel s.hub.pins v = true ↔ d = some v := by
  have hof {c : Opcode} := demands_of_mem (c := c) hr₁ hr₂ hdemand
  -- the command handled in `p` was sent
  obtain ⟨cmd, hcmd⟩ := Option.isSome_iff_exists.mp hp
  have hmem : cmd ∈ (g₁ ++ p :: g₂ ++ [q]).filterMap sent := by
    have hsub := handled_sublist hr₁ hr₂ (noticed_of_clean hclean)
    rw [hinflight, hqueued, List.filter_nil, List.nil_append, List.nil_append,
      ← filterMap_handles] at hsub
    refine hsub.subset (List.mem_filter.mpr ⟨List.mem_filterMap.mpr ⟨p, by simp, hcmd⟩, rfl⟩)
  obtain ⟨hsent, hvalve⟩ := hof hmem
  have hsame : ∀ c ∈ (g₁ ++ p :: g₂ ++ [q]).filterMap sent, c = cmd := fun c hc =>
    eq_of_valveOf (hof hc).1 hsent ((hof hc).2.trans hvalve.symm)
  have hshows := (hub_follows hr₁ hr₂ hb hclean hinflight hqueued hsame (isValid_of_sent hsent) hp hq
    hfrequent hgrace).2
  rwa [hvalve] at hshows

/-- The transfer ends, a second of the hub passes, and the command comes
once more. -/
def commandAgain : List Event :=
  List.replicate 6 .wire ++ (Hub.quietAfterCommand 1001).map .hub ++
    [.controller .tick, .controller (.run Controller.reactTimer ⟨[], false⟩)] ++ commandGoes

/-- The event runs no handler of messages. -/
def handlesNothing : Event → Bool
  | .hub (.run handle _) => handle ≠ Hub.reactI2cHandler
  | _ => true

theorem handled_of_handlesNothing (hall : (h.map Prod.snd).all handlesNothing = true) :
    ∀ r ∈ ofHub h, Hub.handled r = none := by
  intro r hr
  obtain ⟨⟨s, e⟩, hp, hstate, hpart⟩ := mem_project hr
  have hevent := List.all_eq_true.mp hall e (List.mem_map_of_mem hp)
  refine Hub.handled_eq_none fun b hb => ?_
  rw [hb] at hpart
  cases e with
  | hub e =>
    obtain rfl := Option.some.inj hpart
    simp [handlesNothing] at hevent
  | wire => cases ha : arriving s.line <;> simp [hubPart, ha] at hpart
  | _ => cases hpart

/-- What is sent is sent for the chuck. -/
def sentForChuck (r : State × Event) : Bool :=
  !(sent r).isSome || demands r.1.controller = some Hub.ioportChuckClamp

/-- What there is to check of the run. -/
def demandLasts : Bool :=
  (runEvents (step 32) chuckNoticed start).any fun s₁ =>
    decide (inflight s₁ = [] ∧ Hub.pendingMessages s₁.hub = []) &&
      ((history (step 32) commandGoes s₁).all sentForChuck &&
        (runEvents (step 32) commandGoes s₁).any fun sp =>
          decide (handles (sp, commandHandled) = some opcodesCmdUnclampChuck ∧ sp.hub.timer.counter = 0) &&
            (step 32 sp commandHandled).any fun s₂ =>
              (history (step 32) commandAgain s₂).all sentForChuck &&
                (runEvents (step 32) commandAgain s₂).any fun sq =>
                  decide ((handles (sq, commandHandled)).isSome = true ∧ sq.hub.timer.counter = 1001) &&
                    (step 32 sq commandHandled).isSome)

theorem valves_agree_with_demand_chuck : ∃ h₁ h₂ s₁ s, Run (step 32) start h₁ s₁ ∧
    Run (step 32) s₁ h₂ s ∧ ∀ v ∈ Hub.valves,
      pinLevel s.hub.pins v = true ↔ some Hub.ioportChuckClamp = some v := by
  have heval : demandLasts = true := by decide +kernel
  obtain ⟨s₁, hs₁, heval⟩ := (Option.any_eq_true _ _).mp heval
  rw [Bool.and_eq_true, decide_eq_true_eq, Bool.and_eq_true] at heval
  obtain ⟨⟨hinflight, hqueued⟩, hfirst, heval⟩ := heval
  obtain ⟨sp, hsp, heval⟩ := (Option.any_eq_true _ _).mp heval
  rw [Bool.and_eq_true, decide_eq_true_eq] at heval
  obtain ⟨⟨hp, hptime⟩, heval⟩ := heval
  obtain ⟨s₂, hs₂, heval⟩ := (Option.any_eq_true _ _).mp heval
  rw [Bool.and_eq_true] at heval
  obtain ⟨hagain, heval⟩ := heval
  obtain ⟨sq, hsq, heval⟩ := (Option.any_eq_true _ _).mp heval
  rw [Bool.and_eq_true, decide_eq_true_eq] at heval
  obtain ⟨⟨hq, hqtime⟩, hsome⟩ := heval
  obtain ⟨s, hs⟩ := Option.isSome_iff_exists.mp hsome
  -- the run, from its parts
  obtain ⟨h₁, hr₁, hevents₁⟩ := exists_run_of_runEvents hs₁
  obtain ⟨hrp, heventsp⟩ := run_history hsp
  obtain ⟨hrq, heventsq⟩ := run_history hsq
  have hr₂ := (((hrp.snoc hs₂).trans hrq).snoc hs)
  rw [List.append_assoc (history _ _ _), List.singleton_append] at hr₂
  have hevents : (h₁ ++ (history (step 32) commandGoes s₁ ++ (sp, commandHandled) ::
      history (step 32) commandAgain s₂ ++ [(sq, commandHandled)])).map Prod.snd =
      chuckNoticed ++ (commandGoes ++ commandHandled :: commandAgain ++ [commandHandled]) := by
    simp only [List.map_append, List.map_cons, List.map_nil, hevents₁, heventsp, heventsq]
  have hquiet : quietEvents (chuckNoticed ++ (commandGoes ++ commandHandled :: commandAgain ++
      [commandHandled])) = true := by decide +kernel
  have hb := (slight_of_events hevents hquiet (by decide +kernel)).2
  have hclean := fun h' hh' => flips_of_quiet (h := h') (quiet_of_events (hevents ▸ hquiet) hh')
  refine ⟨h₁, _, s₁, s, hr₁, hr₂, valves_agree_with_demand hr₁ hr₂ hb hclean hinflight hqueued
    (fun r hr hsent => ?_) (by rw [hp]; rfl) hq ?_ (by rw [hptime, hqtime]; decide)⟩
  · have hall : sentForChuck r = true := by
      simp only [List.mem_append, List.mem_cons, List.not_mem_nil, or_false] at hr
      rcases hr with (hr | rfl | hr) | rfl
      · exact List.all_eq_true.mp hfirst r hr
      · rfl
      · exact List.all_eq_true.mp hagain r hr
      · rfl
    simpa [sentForChuck, hsent] using hall
  · obtain ⟨ep, hop, hhp⟩ := ofHub_of_handles hp
    obtain ⟨cq, hcq⟩ := Option.isSome_iff_exists.mp hq
    obtain ⟨eq, hoq, -⟩ := ofHub_of_handles hcq
    have hidle : commandAgain.all handlesNothing = true := by decide +kernel
    rw [ofHub_append, ofHub_append _ [(sq, _)], hop, hoq]
    refine frequent_of_two (by rw [Hub.isMessage, hhp]; decide)
      (handled_of_handlesNothing (by rw [heventsq]; exact hidle)) ?_
    rw [Hub.timeOf, Hub.timeOf, hptime, hqtime]
    decide

end Boards

end CncPneumatics
