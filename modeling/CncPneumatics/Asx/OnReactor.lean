import CncPneumatics.Asx.ReactorRegister
import CncPneumatics.Common.Client
/-!
# A client on the reactor

The reactor of `reactor.c` serves a client: its loop reads the flags, pops
a queue and calls the handler, which changes the state of the client in
one step and then notifies others one after the other. Interrupts come
between the steps, so also between two notifications of a handler, but not
while it changes the state.

What the client sees of it is a mailroom.
-/

namespace CncPneumatics

namespace Asx

variable {σ ι κ α β : Type*} {w : ℕ} [Inhabited α]

/-- A client on the reactor. -/
structure OnReactor (σ : Type*) (w : ℕ) (α : Type*) where
  app : σ
  reactor : Reactor w α
  /-- What the running handler has yet to notify. -/
  due : Mailroom α

/-- What can happen. -/
inductive OnReactorEvent (ι κ : Type*) where
  | interrupt (i : ι)
  /-- The reactor reads the flags. -/
  | loop
  /-- It pops a queue and calls the handler. -/
  | dispatch (around : κ)
  /-- The handler notifies the next one. -/
  | notify
  /-- The handler returns. -/
  | handled

/-- A number of notifications, one after the other. -/
def notifyAll (r : Reactor w α) (ns : Mailroom α) : Option (Reactor w α) :=
  runEvents reactorStep (ns.map fun p => .notify p.1 p.2) r

namespace OnReactor

/-- The reactor has nothing to do. -/
def asleep (s : OnReactor σ w α) : Bool :=
  match s.reactor.pc with
  | .loop => s.reactor.notifications == 0
  | _ => false

/-- The handler that was called runs, up to its notifications. -/
def called (c : Client σ ι κ α) (app : σ) (reactor : Reactor w α) (around : κ) :
    Option (OnReactor σ w α) :=
  match reactor.pc with
  | .calling handle data => (c.handler app handle data around).map fun r => ⟨r.1, reactor, r.2⟩
  | _ => some ⟨app, reactor, []⟩

/-- One step. -/
def step (c : Client σ ι κ α) (s : OnReactor σ w α) :
    OnReactorEvent ι κ → Option (OnReactor σ w α)
  | .interrupt i =>
    if c.patient i && !s.asleep then none
    else (c.interrupt s.app i).bind fun r =>
      (notifyAll s.reactor r.2).map fun reactor => { s with app := r.1, reactor := reactor }
  | .loop => (reactorStep s.reactor .loop).map fun reactor => { s with reactor := reactor }
  | .dispatch around =>
    (reactorStep s.reactor .dispatch).bind fun reactor => called c s.app reactor around
  | .notify =>
    match s.due with
    | [] => none
    | p :: due => (reactorStep s.reactor (.notify p.1 p.2)).map fun reactor =>
        { s with reactor := reactor, due := due }
  | .handled =>
    if s.due.isEmpty then
      (reactorStep s.reactor .handled).map fun reactor => { s with reactor := reactor }
    else none

/-- What the client sees of a step: interrupts, and its handlers when they
are called. -/
def seen (p : OnReactor σ w α × OnReactorEvent ι κ) : Option (ClientEvent ι κ) :=
  match p.2 with
  | .interrupt i => some (.interrupt i)
  | .dispatch around =>
    (reactorDelivery p.1.reactor .dispatch).map fun d => .run d.1 around
  | _ => none

end OnReactor

variable {c : Client σ ι κ α} {caps : ℕ → ℕ} {r r' : Reactor w α} {s s' s₀ : OnReactor σ w α}
  {t : σ × Mailroom α} {look : ℕ → α → β} {hist : List (OnReactor σ w α × OnReactorEvent ι κ)}

/-! ## The queues as mailboxes -/

/-- What is in the queue of a handler, when there is such a handler. -/
def Reactor.held (r : Reactor w α) (k : ℕ) : List α := if k < r.nextHandle then r.contents k else []

/-- The capacities are those of the queues. -/
def Reactor.HasRoom (caps : ℕ → ℕ) (r : Reactor w α) : Prop :=
  ∀ k < r.nextHandle, (r.handler k).queue.nelem = caps k

omit [Inhabited α] in
theorem Reactor.HasRoom.of_same (h : r.HasRoom caps) (hsame : r.SameTables r') :
    r'.HasRoom caps := by
  intro k hk
  rw [hsame.nextHandle] at hk
  rw [hsame.nelem k hk, h k hk]

theorem Reactor.held_congr (hsame : r.SameTables r') (h : ∀ k, r'.contents k = r.contents k)
    (k : ℕ) : r'.held k = r.held k := by
  rw [Reactor.held, Reactor.held, hsame.nextHandle, h]

/-- **A notification is posted.** -/
theorem Reactor.held_notify (hr : r.Inv) (hroom : r.HasRoom caps) {handle : ℕ} {data : α}
    (hstep : reactorStep r (.notify handle data) = some r') :
    r'.pc = r.pc ∧ ∀ k, r'.held k = if k = handle then post (caps k) (r.held k) data else r.held k := by
  obtain ⟨-, hsame, heff⟩ := reactorStep_spec hr hstep
  cases heff with
  | notify hlt hpc hcontents =>
    refine ⟨hpc, fun k => ?_⟩
    rw [Reactor.held, Reactor.held, hsame.nextHandle, hcontents]
    by_cases hk : k = handle
    · subst hk
      rw [if_pos hlt, if_pos hlt, if_pos rfl, if_pos rfl, hroom k hlt]
    · rw [if_neg hk, if_neg hk]

/-- **Notifications are posted**, each to the mailbox of its handler. -/
theorem notifyAll_spec {ns : Mailroom α} (hr : r.Inv) (hroom : r.HasRoom caps)
    (h : notifyAll r ns = some r') : r'.Inv ∧ r.SameTables r' ∧ r'.pc = r.pc ∧
      ∀ k, r'.held k = (waiting ns k).foldl (post (caps k)) (r.held k) := by
  induction ns generalizing r with
  | nil =>
    obtain rfl := Option.some.inj h
    exact ⟨hr, .refl r, rfl, fun _ => rfl⟩
  | cons p ns ih =>
    obtain ⟨r₁, hstep, h⟩ := Option.bind_eq_some_iff.mp h
    obtain ⟨hr₁, hsame₁, -⟩ := reactorStep_spec hr hstep
    obtain ⟨hpc₁, hheld₁⟩ := Reactor.held_notify hr hroom hstep
    obtain ⟨hr', hsame, hpc, hheld⟩ := ih hr₁ (hroom.of_same hsame₁) h
    refine ⟨hr', hsame₁.trans hsame, hpc.trans hpc₁, fun k => ?_⟩
    rw [hheld, hheld₁, waiting_cons]
    by_cases hk : p.1 = k
    · rw [if_pos hk, if_pos hk.symm, List.foldl_cons]
    · rw [if_neg hk, if_neg (Ne.symm hk)]

/-! ## The refinement -/

namespace OnReactor

/-- The books of the reactor are kept, and only a handler that runs has
something to notify. -/
structure Holds (caps : ℕ → ℕ) (s : OnReactor σ w α) : Prop where
  inv : s.reactor.Inv
  room : s.reactor.HasRoom caps
  due : s.due ≠ [] → ∃ handle data, s.reactor.pc = .calling handle data

/-- What a handler makes of its message depends on what it looks at. -/
def Looks (c : Client σ ι κ α) (look : ℕ → α → β) : Prop :=
  ∀ app handle data data' around, look handle data = look handle data' →
    c.handler app handle data around = c.handler app handle data' around

/-- **What the client sees**: its state, and a mailroom with all that was
posted, also by the handler that has yet to notify it. -/
structure Shows (caps : ℕ → ℕ) (look : ℕ → α → β) (s : OnReactor σ w α) (t : σ × Mailroom α) :
    Prop where
  app : t.1 = s.app
  mail : ∀ k, (waiting t.2 k).map (look k) =
    ((waiting s.due k).foldl (post (caps k)) (s.reactor.held k)).map (look k)

/-- An interrupt notifies nobody whom the running handler has yet to
notify, unless he does not look at the message. -/
def Apart (c : Client σ ι κ α) (look : ℕ → α → β) (p : OnReactor σ w α × OnReactorEvent ι κ) : Prop :=
  ∀ i app ns, p.2 = .interrupt i → c.interrupt p.1.app i = some (app, ns) →
    ∀ q ∈ ns, waiting p.1.due q.1 = [] ∨ ∀ data data', look q.1 data = look q.1 data'

omit [Inhabited α] in
theorem at_loop_of_asleep (h : s.asleep = true) :
    s.reactor.pc = .loop ∧ s.reactor.notifications = 0 := by
  unfold asleep at h
  split at h
  · next hpc => exact ⟨hpc, by simpa using h⟩
  · cases h

/-- No handler runs while the reactor is asleep. -/
theorem Holds.due_of_asleep (hs : Holds caps s) (h : s.asleep = true) : s.due = [] := by
  by_contra hne
  obtain ⟨handle, data, hpc⟩ := hs.due hne
  rw [(at_loop_of_asleep h).1] at hpc
  cases hpc

/-- While it is asleep nothing waits. -/
theorem Shows.nil_of_asleep (h : Shows caps look s t) (hs : Holds caps s)
    (hasleep : s.asleep = true) : t.2 = [] := by
  have hdue := hs.due_of_asleep hasleep
  refine eq_nil_of_waiting fun k => (List.map_eq_nil_iff (f := look k)).mp ?_
  rw [h.mail, hdue, waiting_nil, List.foldl_nil, List.map_eq_nil_iff, Reactor.held]
  split_ifs with hk
  · -- the flag of the handler would be set
    obtain ⟨i, hi, rfl⟩ := hs.inv.sorted.lookup_surj k hk
    by_contra hne
    have hbit := (hs.inv.flagged.bit_iff i hi).mpr hne
    rw [(at_loop_of_asleep hasleep).2] at hbit
    simp at hbit
  · rfl

/-- **What an interrupt does.** -/
theorem Holds.interrupt (hs : Holds caps s) {i : ι} (hstep : s.step c (.interrupt i) = some s') :
    Holds caps s' ∧ (c.patient i = true → s.asleep = true) ∧ s'.due = s.due ∧
      ∃ ns, c.interrupt s.app i = some (s'.app, ns) ∧
        ∀ k, s'.reactor.held k = (waiting ns k).foldl (post (caps k)) (s.reactor.held k) := by
  simp only [step] at hstep
  split_ifs at hstep with hpatient
  obtain ⟨⟨app, ns⟩, hint, hstep⟩ := Option.bind_eq_some_iff.mp hstep
  obtain ⟨reactor, hnotify, rfl⟩ := Option.map_eq_some_iff.mp hstep
  obtain ⟨hinv, hsame, hpc, hheld⟩ := notifyAll_spec hs.inv hs.room hnotify
  refine ⟨⟨hinv, hs.room.of_same hsame, fun hne => hpc ▸ hs.due hne⟩, fun hp => ?_, rfl, ns, hint,
    hheld⟩
  by_contra hnot
  exact hpatient (by rw [hp, Bool.eq_false_iff.mpr hnot]; rfl)

/-- **The books are kept**, by every step. -/
theorem Holds.step (hs : Holds caps s) {e : OnReactorEvent ι κ} (hstep : s.step c e = some s') :
    Holds caps s' := by
  cases e with
  | interrupt i => exact (hs.interrupt hstep).1
  | loop =>
    obtain ⟨reactor, hreactor, rfl⟩ := Option.map_eq_some_iff.mp hstep
    obtain ⟨hinv, hsame, -⟩ := reactorStep_spec hs.inv hreactor
    refine ⟨hinv, hs.room.of_same hsame, fun hne => ?_⟩
    -- the loop is at its top, and no handler runs
    obtain ⟨handle, data, hpc⟩ := hs.due hne
    rw [reactorStep, hpc] at hreactor
    cases hreactor
  | dispatch around =>
    obtain ⟨reactor, hreactor, hcalled⟩ := Option.bind_eq_some_iff.mp hstep
    obtain ⟨hinv, hsame, -⟩ := reactorStep_spec hs.inv hreactor
    unfold called at hcalled
    split at hcalled
    · next handle data hpc =>
      obtain ⟨_, -, rfl⟩ := Option.map_eq_some_iff.mp hcalled
      exact ⟨hinv, hs.room.of_same hsame, fun _ => ⟨handle, data, hpc⟩⟩
    · obtain rfl := Option.some.inj hcalled
      exact ⟨hinv, hs.room.of_same hsame, fun hne => absurd rfl hne⟩
  | notify =>
    simp only [OnReactor.step] at hstep
    split at hstep
    · cases hstep
    · next p due hdue =>
      obtain ⟨reactor, hreactor, rfl⟩ := Option.map_eq_some_iff.mp hstep
      obtain ⟨hinv, hsame, -⟩ := reactorStep_spec hs.inv hreactor
      have hpc := (Reactor.held_notify hs.inv hs.room hreactor).1
      exact ⟨hinv, hs.room.of_same hsame, fun _ => hpc ▸ hs.due (hdue ▸ List.cons_ne_nil p due)⟩
  | handled =>
    simp only [OnReactor.step] at hstep
    split_ifs at hstep with hdue
    obtain ⟨reactor, hreactor, rfl⟩ := Option.map_eq_some_iff.mp hstep
    obtain ⟨hinv, hsame, -⟩ := reactorStep_spec hs.inv hreactor
    exact ⟨hinv, hs.room.of_same hsame, fun hne => absurd (List.isEmpty_iff.mp hdue) hne⟩

theorem Holds.run (hs : Holds caps s₀) (hr : Run (OnReactor.step c) s₀ hist s) : Holds caps s :=
  hr.invariant (I := Holds caps) hs fun _ _ _ h hstep => h.step hstep

/-- An interrupt. -/
theorem Shows.interrupt (h : Shows caps look s t) (hs : Holds caps s) {i : ι}
    (hapart : Apart c look (s, (.interrupt i : OnReactorEvent ι κ)))
    (hstep : s.step c (.interrupt i) = some s') :
    ∃ t', c.step caps t (.interrupt i) = some t' ∧ Shows caps look s' t' := by
  obtain ⟨-, hpatient, hsame, ns, hint, hheld⟩ := hs.interrupt hstep
  refine ⟨(s'.app, depositAll caps t.2 ns), ?_, rfl, fun k => ?_⟩
  · have henabled : ¬ (c.patient i && !t.2.isEmpty) = true := by
      intro hwaits
      rw [Bool.and_eq_true, Bool.not_eq_true'] at hwaits
      rw [h.nil_of_asleep hs (hpatient hwaits.1)] at hwaits
      cases hwaits.2
    rw [Client.step, if_neg henabled, h.app, hint]
    rfl
  · show (waiting (depositAll caps t.2 ns) k).map (look k) =
      ((waiting s'.due k).foldl (post (caps k)) (s'.reactor.held k)).map (look k)
    simp only [waiting_depositAll, map_foldl_post, h.mail, hheld, hsame]
    by_cases hnone : waiting ns k = []
    · rw [hnone, List.map_nil, List.foldl_nil, List.foldl_nil]
    · obtain ⟨data, hdata⟩ := List.exists_mem_of_ne_nil _ hnone
      -- nobody is notified by both, or he cannot tell in which order
      rcases hapart i s'.app ns rfl hint (k, data) (mem_of_waiting hdata) with hdue | halike
      · rw [hdue, List.map_nil, List.foldl_nil, List.foldl_nil]
      · exact foldl_post_comm (x := look k data) (List.forall_mem_map.mpr fun y _ => halike y data)
          (List.forall_mem_map.mpr fun y _ => halike y data)

/-- The reactor calls a handler. -/
theorem Shows.dispatch (h : Shows caps look s t) (hs : Holds caps s) (hlook : Looks c look)
    {around : κ} (hstep : s.step c (.dispatch around) = some s') :
    ∃ handle data t', reactorDelivery s.reactor .dispatch = some (handle, data) ∧
      c.step caps t (.run handle around) = some t' ∧ Shows caps look s' t' := by
  obtain ⟨reactor, hreactor, hcalled⟩ := Option.bind_eq_some_iff.mp hstep
  obtain ⟨-, hsame, heff⟩ := reactorStep_spec hs.inv hreactor
  generalize hr : s.reactor = r at heff
  cases heff with
  | @call flags i data rest _ hflagged hi hset hlow hcons hpc hcontents =>
    subst hr
    have hdue : s.due = [] := by
      by_contra hne
      obtain ⟨handle, data, hcalling⟩ := hs.due hne
      rw [hflagged] at hcalling
      cases hcalling
    have hdelivery : reactorDelivery s.reactor .dispatch = some (s.reactor.lookup i, data) := by
      unfold reactorDelivery
      rw [hreactor]
      dsimp only
      rw [hpc]
    unfold called at hcalled
    rw [hpc] at hcalled
    obtain ⟨⟨app, ns⟩, hhandler, rfl⟩ := Option.map_eq_some_iff.mp hcalled
    -- the message popped is the oldest that waits for the handler
    have hlt := hs.inv.sorted.lookup_lt i hi
    have hmail : ∀ k, (waiting t.2 k).map (look k) = (s.reactor.held k).map (look k) := fun k => by
      rw [h.mail, hdue, waiting_nil, List.foldl_nil]
    have holdest := hmail (s.reactor.lookup i)
    rw [Reactor.held, if_pos hlt, hcons, List.map_cons] at holdest
    obtain ⟨data', rest', hwaiting, hdata, hrest'⟩ := List.map_eq_cons_iff.mp holdest
    obtain ⟨mail, hcollect, hrest⟩ := collect_of_cons hwaiting
    refine ⟨_, data, (app, depositAll caps mail ns), hdelivery, ?_, rfl, fun k => ?_⟩
    · rw [Client.step, hcollect, Option.bind_some, h.app, hlook _ _ _ data _ hdata, hhandler]
      rfl
    · show (waiting (depositAll caps mail ns) k).map (look k) =
        ((waiting ns k).foldl (post (caps k)) (reactor.held k)).map (look k)
      rw [waiting_depositAll, map_foldl_post, map_foldl_post, hrest, Reactor.held, hsame.nextHandle,
        hcontents]
      by_cases hk : k = s.reactor.lookup i
      · subst hk
        rw [if_pos rfl, if_pos rfl, if_pos hlt, hrest']
      · rw [if_neg hk, if_neg hk, hmail, Reactor.held]

/-- The reactor does something else than to notify or to pop a queue. -/
theorem Shows.unchanged (h : Shows caps look s t) {reactor : Reactor w α}
    (hsame : s.reactor.SameTables reactor)
    (hcontents : ∀ k, reactor.contents k = s.reactor.contents k) :
    Shows caps look { s with reactor := reactor } t where
  app := h.app
  mail k := by rw [h.mail, Reactor.held_congr hsame hcontents]

/-- A handler notifies the next one. -/
theorem Shows.notify (h : Shows caps look s t) (hs : Holds caps s) {p : ℕ × α} {due : Mailroom α}
    (hdue : s.due = p :: due) {reactor : Reactor w α}
    (hreactor : reactorStep s.reactor (.notify p.1 p.2) = some reactor) :
    Shows caps look { s with reactor := reactor, due := due } t where
  app := h.app
  mail k := by
    have hheld := (Reactor.held_notify hs.inv hs.room hreactor).2
    rw [h.mail, hdue, waiting_cons]
    show _ = ((waiting due k).foldl (post (caps k)) (reactor.held k)).map (look k)
    rw [hheld]
    by_cases hk : p.1 = k
    · rw [if_pos hk, if_pos hk.symm, List.foldl_cons]
    · rw [if_neg hk, if_neg (Ne.symm hk)]

/-- **The step lemma**: a step on the reactor is a step of the client with
its mailroom, or none that it sees. -/
theorem Shows.of_step (h : Shows caps look s t) (hs : Holds caps s) (hlook : Looks c look)
    {e : OnReactorEvent ι κ} (hapart : Apart c look (s, e)) (hstep : s.step c e = some s') :
    ∃ t', runEvents (c.step caps) (seen (s, e)).toList t = some t' ∧ Shows caps look s' t' := by
  cases e with
  | interrupt i =>
    obtain ⟨t', ht', hshows⟩ := h.interrupt hs hapart hstep
    exact ⟨t', by rw [seen, Option.toList_some, runEvents, ht']; rfl, hshows⟩
  | loop =>
    obtain ⟨reactor, hreactor, rfl⟩ := Option.map_eq_some_iff.mp hstep
    obtain ⟨-, hsame, heff⟩ := reactorStep_spec hs.inv hreactor
    have hcontents : ∀ k, reactor.contents k = s.reactor.contents k := by
      generalize hr : s.reactor = r at heff
      cases heff with
      | sleep => exact fun _ => rfl
      | read _ hcontents => exact hcontents
    exact ⟨t, rfl, h.unchanged hsame hcontents⟩
  | dispatch around =>
    obtain ⟨handle, data, t', hdelivery, ht', hshows⟩ := h.dispatch hs hlook hstep
    refine ⟨t', ?_, hshows⟩
    have hseen : seen (s, (.dispatch around : OnReactorEvent ι κ)) = some (.run handle around) := by
      unfold seen
      dsimp only
      rw [hdelivery, Option.map_some]
    rw [hseen, Option.toList_some, runEvents, ht']
    rfl
  | notify =>
    simp only [OnReactor.step] at hstep
    split at hstep
    · cases hstep
    · next p due hdue =>
      obtain ⟨reactor, hreactor, rfl⟩ := Option.map_eq_some_iff.mp hstep
      exact ⟨t, rfl, h.notify hs hdue hreactor⟩
  | handled =>
    simp only [OnReactor.step] at hstep
    split_ifs at hstep
    obtain ⟨reactor, hreactor, rfl⟩ := Option.map_eq_some_iff.mp hstep
    obtain ⟨-, hsame, heff⟩ := reactorStep_spec hs.inv hreactor
    have hcontents : ∀ k, reactor.contents k = s.reactor.contents k := by
      generalize hr : s.reactor = r at heff
      cases heff with
      | handled _ hcontents => exact hcontents
    exact ⟨t, rfl, h.unchanged hsame hcontents⟩

/-- **The refinement**: a run on the reactor is a run of the client with a
mailroom, as long as interrupts and handlers keep apart. -/
theorem Shows.of_run (h : Shows caps look s₀ t) (hs : Holds caps s₀) (hlook : Looks c look)
    (hr : Run (step c) s₀ hist s) (hapart : ∀ p ∈ hist, Apart c look p) :
    ∃ t', runEvents (c.step caps) (hist.filterMap seen) t = some t' ∧ Shows caps look s t' := by
  obtain ⟨t', ht', -, hshows⟩ := exists_runEvents_of_simulation (P := Apart c look)
    (R := fun s t => Holds caps s ∧ Shows caps look s t)
    (fun s e s' t hapart hst hstep => by
      obtain ⟨t', ht', hshows⟩ := hst.2.of_step hst.1 hlook hapart hstep
      exact ⟨t', ht', hst.1.step hstep, hshows⟩) hr hapart ⟨hs, h⟩
  exact ⟨t', ht', hshows⟩

/-! ## Clients that keep apart -/

/-- **A client whose interrupts keep apart from its handlers**: unless it
waits until the reactor is asleep, an interrupt notifies only some that no
handler notifies, and some that do not look at the message. The handlers
are run where `P` holds. -/
structure KeepsApart (c : Client σ ι κ α) (look : ℕ → α → β) (P : σ × Mailroom α → Prop)
    (K : List ℕ) : Prop where
  looks : Looks c look
  interrupt : ∀ app i app' ns, c.patient i = false → c.interrupt app i = some (app', ns) →
    ∀ q ∈ ns, q.1 ∈ K ∨ ∀ data data', look q.1 data = look q.1 data'
  handler : ∀ t handle data around t', P t → c.handler t.1 handle data around = some t' →
    ∀ k ∈ K, waiting t'.2 k = []

variable {P : σ × Mailroom α → Prop} {K : List ℕ}

/-- The invariant: nothing for those is due. -/
theorem KeepsApart.apart_of_run (hc : KeepsApart c look P K) (hs : Holds caps s₀)
    (h : Shows caps look s₀ t) (hdue : s₀.due = [])
    (hP : ∀ es t', runEvents (c.step caps) es t = some t' → P t') (hr : Run (step c) s₀ hist s) :
    (∀ p ∈ hist, Apart c look p) ∧ ∀ k ∈ K, waiting s.due k = [] := by
  refine hr.invariant_history (I := fun hist s =>
    (∀ p ∈ hist, Apart c look p) ∧ ∀ k ∈ K, waiting s.due k = []) ?_ ?_
  · exact ⟨fun _ hp => absurd hp List.not_mem_nil, fun k _ => by rw [hdue, waiting_nil]⟩
  intro hist s e s' hrun ⟨hapart, hnone⟩ hstep
  obtain ⟨t₁, ht₁, hshows⟩ := h.of_run hs hc.looks hrun hapart
  have hlast : Apart c look (s, e) → ∀ p ∈ hist ++ [(s, e)], Apart c look p := fun hq p hp =>
    (List.mem_append.mp hp).elim (hapart p) fun hp => List.mem_singleton.mp hp ▸ hq
  cases e with
  | interrupt i =>
    have hs₁ := hs.run hrun
    obtain ⟨-, hpatient, hsame, -⟩ := hs₁.interrupt hstep
    refine ⟨hlast fun j app ns' hj hint' q hq => ?_, hsame ▸ hnone⟩
    obtain rfl := OnReactorEvent.interrupt.inj hj
    cases hp : c.patient i with
    | true => exact .inl (by rw [hs₁.due_of_asleep (hpatient hp), waiting_nil])
    | false => exact (hc.interrupt _ _ _ _ hp hint' q hq).imp_left (hnone q.1)
  | loop =>
    obtain ⟨_, -, rfl⟩ := Option.map_eq_some_iff.mp hstep
    exact ⟨hlast (fun _ _ _ hj => by cases hj), hnone⟩
  | dispatch around =>
    refine ⟨hlast (fun _ _ _ hj => by cases hj), ?_⟩
    obtain ⟨_, -, hcalled⟩ := Option.bind_eq_some_iff.mp hstep
    unfold called at hcalled
    split at hcalled
    · obtain ⟨t', ht', rfl⟩ := Option.map_eq_some_iff.mp hcalled
      rw [← hshows.app] at ht'
      exact hc.handler _ _ _ _ _ (hP _ _ ht₁) ht'
    · obtain rfl := Option.some.inj hcalled
      exact fun _ _ => waiting_nil
  | notify =>
    refine ⟨hlast (fun _ _ _ hj => by cases hj), fun k hk => ?_⟩
    simp only [step] at hstep
    split at hstep
    · cases hstep
    · next p due hp =>
      obtain ⟨_, -, rfl⟩ := Option.map_eq_some_iff.mp hstep
      have hdue := hnone k hk
      rw [hp, waiting_cons] at hdue
      split_ifs at hdue
      exact hdue
  | handled =>
    refine ⟨hlast (fun _ _ _ hj => by cases hj), ?_⟩
    simp only [step] at hstep
    split_ifs at hstep
    obtain ⟨_, -, rfl⟩ := Option.map_eq_some_iff.mp hstep
    exact hnone

/-- **Every run on the reactor is a run of such a client with a mailroom.** -/
theorem KeepsApart.run (hc : KeepsApart c look P K) (hs : Holds caps s₀)
    (h : Shows caps look s₀ t) (hdue : s₀.due = [])
    (hP : ∀ es t', runEvents (c.step caps) es t = some t' → P t') (hr : Run (step c) s₀ hist s) :
    ∃ m, runEvents (c.step caps) (hist.filterMap seen) t = some (s.app, m) ∧
      Shows caps look s (s.app, m) := by
  obtain ⟨⟨app, m⟩, ht', hshows⟩ := h.of_run hs hc.looks hr (hc.apart_of_run hs h hdue hP hr).1
  obtain rfl : app = s.app := hshows.app
  exact ⟨m, ht', hshows⟩

end OnReactor

/-! ## From the start -/

variable {reactorMaxHandlers : ℕ} {l : List (ℕ × ℕ)}

/-- Handlers registered one after the other, each with its priority and the
size of its queue. -/
def registerAll (reactorMaxHandlers : ℕ) (l : List (ℕ × ℕ)) :
    Option (Reactor (reactorMaskWidth reactorMaxHandlers) α) :=
  runEvents (setupStep reactorMaxHandlers) (l.map fun p => .register p.1 p.2) .start

/-- **What the registrations leave**: handlers of these priorities with
empty queues, no flag, and the loop at its top. -/
structure RegisteredAs (l : List (ℕ × ℕ)) (r : Reactor (reactorMaskWidth reactorMaxHandlers) α) :
    Prop where
  nextHandle : r.nextHandle = l.length
  nextHandle_le : r.nextHandle ≤ reactorMaxHandlers
  lookup_length : r.handleLookup.length = r.nextHandle
  handler : ∀ k (hk : k < l.length), (r.handler k).priority = l[k].1 % 2 ^ 8 ∧
    (r.handler k).queue = queueInit l[k].2
  notifications : r.notifications = 0
  at_loop : r.pc = .loop

theorem registeredAs_of_registerAll
    {r : Reactor (reactorMaskWidth reactorMaxHandlers) α} (h : registerAll reactorMaxHandlers l = some r) :
    RegisteredAs l r := by
  induction l using List.reverseRecOn generalizing r with
  | nil =>
    obtain rfl := Option.some.inj h
    exact ⟨rfl, Nat.zero_le _, rfl, fun k hk => absurd hk (Nat.not_lt_zero k), rfl, rfl⟩
  | append_singleton l p ih =>
    rw [registerAll, List.map_append, runEvents_append] at h
    obtain ⟨r₁, hr₁, h⟩ := Option.bind_eq_some_iff.mp h
    have hreg := ih hr₁
    rw [List.map_singleton, runEvents] at h
    obtain ⟨r₂, hstep, h⟩ := Option.bind_eq_some_iff.mp h
    obtain rfl := Option.some.inj h
    rw [setupStep, reactorRegister] at hstep
    by_cases hfull : r₁.nextHandle = reactorMaxHandlers
    · rw [if_pos hfull] at hstep; cases hstep
    rw [if_neg hfull] at hstep
    obtain rfl := Option.some.inj hstep
    have hle := hreg.nextHandle_le
    have hnext := hreg.nextHandle
    have hlookup := hreg.lookup_length
    simp only [Reactor.nextHandle] at hle hfull hnext hlookup
    refine ⟨?_, ?_, ?_, fun k hk => ?_, hreg.notifications, hreg.at_loop⟩
    · simp only [Reactor.nextHandle, List.length_append, List.length_singleton, hnext]
    · simp only [Reactor.nextHandle, List.length_append, List.length_singleton]
      omega
    · simp only [Reactor.nextHandle, List.length_append, List.length_singleton, hlookup]
    · rw [List.length_append, List.length_singleton] at hk
      by_cases hlt : k < l.length
      · have hold : ∀ items, cell (r₁.handlers ++ items) k = r₁.handler k := fun items =>
          cell_append items (hnext.symm ▸ hlt)
        rw [List.getElem_append_left hlt, Reactor.handler, hold]
        exact hreg.handler k hlt
      · -- the new handler has the next handle
        obtain rfl : k = l.length := by omega
        have hlast : ∀ item, cell (r₁.handlers ++ [item]) l.length = item := fun item => by
          rw [← hnext, cell_concat_length]
        rw [Reactor.handler, hlast, List.getElem_append_right (by omega)]
        simp

theorem RegisteredAs.registered {r : Reactor (reactorMaskWidth reactorMaxHandlers) α}
    (h : RegisteredAs l r) (hne : l ≠ []) (hsizes : ∀ p ∈ l, 0 < p.2 ∧ p.2 ≤ 128) :
    r.Registered reactorMaxHandlers := by
  have hholds : ∀ k < r.nextHandle, (r.handler k).queue.Holds [] := fun k hk => by
    rw [h.nextHandle] at hk
    rw [(h.handler k hk).2]
    have hsize := hsizes _ (List.getElem_mem hk)
    exact queueInit_holds hsize.1 hsize.2
  have hcontents : ∀ k < r.nextHandle, r.contents k = [] := fun k hk => (hholds k hk).contents_eq
  refine ⟨?_, h.nextHandle_le, h.lookup_length, fun k hk => ?_, fun k hk => ?_, h.at_loop⟩
  · rw [h.nextHandle]
    exact List.length_pos_iff.mpr hne
  · rw [hcontents k hk]
    exact hholds k hk
  · rw [hcontents k hk, h.notifications]
    simp

namespace OnReactor

/-- A client when the reactor starts to run. -/
def start (qsort : List PriorityItem → List PriorityItem) (app : σ) (r : Reactor w α) :
    OnReactor σ w α := ⟨app, reactorSortByPriority qsort r, []⟩

/-- **At the start** the books are kept and nothing waits. -/
theorem start_shows (hmax : reactorMaxHandlers ≤ 32)
    {qsort : List PriorityItem → List PriorityItem} (hqsort : IsQsort qsort)
    {r : Reactor (reactorMaskWidth reactorMaxHandlers) α}
    (h : registerAll reactorMaxHandlers l = some r) (hne : l ≠ [])
    (hsizes : ∀ p ∈ l, 0 < p.2 ∧ p.2 ≤ 128)
    (hcaps : ∀ k (hk : k < l.length), caps k = l[k].2) (app : σ) :
    Holds caps (start qsort app r) ∧ Shows caps look (start qsort app r) (app, []) := by
  have hreg := registeredAs_of_registerAll h
  obtain ⟨hinv, hnext, hsame⟩ := reactorSortByPriority_inv hmax hqsort (hreg.registered hne hsizes)
  have hqueue : ∀ k (hk : k < l.length),
      ((reactorSortByPriority qsort r).handler k).queue = queueInit l[k].2 := fun k hk => by
    rw [(hsame k).1, (hreg.handler k hk).2]
  refine ⟨⟨hinv, fun k hk => ?_, fun hdue => absurd rfl hdue⟩, rfl, fun k => ?_⟩
  · replace hk : k < (reactorSortByPriority qsort r).nextHandle := hk
    rw [hnext, hreg.nextHandle] at hk
    show ((reactorSortByPriority qsort r).handler k).queue.nelem = caps k
    have hsize := hsizes _ (List.getElem_mem hk)
    rw [hqueue k hk, hcaps k hk, queueInit]
    exact Nat.mod_eq_of_lt (by omega)
  · show [].map (look k) = ((reactorSortByPriority qsort r).held k).map (look k)
    congr 1
    rw [Reactor.held]
    split_ifs with hk
    · rw [hnext, hreg.nextHandle] at hk
      have hsize := hsizes _ (List.getElem_mem hk)
      rw [Reactor.contents, hqueue k hk]
      exact (queueInit_holds hsize.1 hsize.2).contents_eq.symm
    · rfl

end OnReactor

end Asx

end CncPneumatics
