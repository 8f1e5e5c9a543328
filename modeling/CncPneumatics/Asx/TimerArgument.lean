import CncPneumatics.Asx.TimerCauses
import CncPneumatics.Asx.TimerChain
/-!
# The argument of a repeating timer

A repeating timer is one record after another: the dispatch that expires
one arms the next, and it arms it with no argument. The timer is followed
through these records by a name, which its renewals keep.
-/

namespace CncPneumatics

namespace Asx

/-! ## Following a timer -/

/-- The name of the timer that is followed. The others have the name 0. -/
def followed : ℕ := 1

/-- The pending timers with their names, after a call. -/
def namedAfter (fuel : ℕ) (l : List Named) (p : Timer × TimerOp) : List Named :=
  match p.2 with
  | .arm reactor count rep arg =>
    armNamed p.1.counter (⟨reactor, (p.1.currentInstance + 1) % 2 ^ 32, count, rep, arg⟩, 0) l
  | .cancel inst => if (timerCancel p.1 inst).1 then l.eraseP (fun q => q.1.inst = inst) else l
  | .tick => l
  | .dispatch => ((drainNamed p.1.counter p.1.counter fuel l p.1.currentInstance).map
      fun r => r.2.1).getD l

/-- The notifications that are for the timer that is followed. -/
def ownNotices (names : List ℕ) (ns : List (ℕ × ℕ)) : List (ℕ × ℕ) :=
  ((names.zip ns).filter fun q => q.1 = followed).map Prod.snd

/-- What a call notifies for the timer that is followed. -/
def expiriesOf (fuel : ℕ) (l : List Named) (p : Timer × TimerOp) : List (ℕ × ℕ) :=
  match p.2, drainNamed p.1.counter p.1.counter fuel l p.1.currentInstance,
    timerDispatch fuel p.1 with
  | .dispatch, some r, some r' => ownNotices r.1 r'.1
  | _, _, _ => []

/-- A timer followed through a history: the pending timers with their names
at its end, and all that was notified for the timer. -/
def follow (fuel : ℕ) (l : List Named) (hist : List (Timer × TimerOp)) :
    List Named × List (ℕ × ℕ) :=
  hist.foldl (fun r p => (namedAfter fuel r.1 p, r.2 ++ expiriesOf fuel r.1 p)) (l, [])

/-- A timer among those that are pending. -/
def armFollowed (t : Timer) (f : TimerFuture) : List Named :=
  armNamed t.counter (f, followed) (t.pending.map fun g => (g, 0))

/-- The expiries of a timer, from when it is armed. -/
def expiries (fuel : ℕ) (t : Timer) (f : TimerFuture) (hist : List (Timer × TimerOp)) :
    List (ℕ × ℕ) := (follow fuel (armFollowed t f) hist).2

/-- Timers are armed for registered reactors. -/
def Registered : Timer × TimerOp → Prop
  | (_, .arm reactor _ _ _) => reactor ≠ reactorNullHandle
  | _ => True

instance : DecidablePred Registered
  | (_, .arm reactor _ _ _) => inferInstanceAs (Decidable (reactor ≠ reactorNullHandle))
  | (_, .cancel _) | (_, .tick) | (_, .dispatch) => isTrue trivial

variable {t t' t₀ t₁ : Timer} {f : TimerFuture} {p q : Named} {l l' : List Named} {op : TimerOp}
  {now c i i' fuel timeNow reactor count rep arg inst x R : ℕ} {names : List ℕ}
  {ns : List (ℕ × ℕ)} {hist hist₀ : List (Timer × TimerOp)}

/-! ## The names are those of the pending timers -/

/-- The names of the dispatch loop are those of its list. -/
theorem drainNamed_of_ringDrain {r : List (ℕ × ℕ) × List TimerFuture × ℕ}
    (h : ringDrain timeNow c fuel (l.map Prod.fst) i = some r) :
    ∃ names l' , drainNamed timeNow c fuel l i = some (names, l', r.2.2) ∧
      l'.map Prod.fst = r.2.1 := by
  have herase : (drainNamed timeNow c fuel l i = none ∧ _) ∨ _ :=
    drainNamed_erase (Q := fun _ _ => True) fun _ _ => trivial
  rcases herase with ⟨-, hnone⟩ | ⟨names, l', i', ns, hd, hr, -⟩
  · rw [hnone] at h
    cases h
  · rw [hr, Option.some.injEq] at h
    subst h
    exact ⟨names, l', hd, rfl⟩

/-- The names go with the ring. -/
structure Names (l : List Named) (t : Timer) : Prop where
  holds : t.Holds t.pending
  erased : l.map Prod.fst = t.pending

/-- **A call keeps the names** with the timers. -/
theorem Names.step (h : Names l t) (hp : Registered (t, op))
    (hs : timerCall fuel t op = some t') : Names (namedAfter fuel l (t, op)) t' := by
  unfold timerCall timerStep at hs
  cases op with
  | arm reactor count rep arg =>
    rw [Option.map_map] at hs
    obtain ⟨⟨inst, t₂⟩, harm, rfl⟩ := Option.map_eq_some_iff.mp hs
    obtain ⟨hl, -, hpending⟩ := pending_of_timerArm h.holds hp harm
    refine ⟨hl, ?_⟩
    rw [namedAfter, map_armNamed, h.erased]
    exact hpending.symm
  | cancel inst =>
    obtain rfl := Option.some.inj hs
    show Names (if (timerCancel t inst).1 then _ else _) (timerCancel t inst).2
    by_cases hpending : t.pending.length < timerMaxCallback ∧ ∃ f ∈ t.pending, f.inst = inst
    · obtain ⟨t₂, hcancel, hl, -⟩ := timerCancel_eq_true h.holds hpending.1 inst hpending.2
      rw [hcancel, if_pos rfl]
      refine ⟨hl.holds_pending, ?_⟩
      rw [hl.pending_eq, ← h.erased, List.eraseP_map]
      rfl
    · have hcancel : timerCancel t inst = (false, t) := by
        rcases h.holds.length_le.lt_or_eq with hlt | hfull
        · exact timerCancel_eq_false h.holds inst fun f hf hinst => hpending ⟨hlt, f, hf, hinst⟩
        · exact timerCancel_full h.holds hfull inst
      rw [hcancel, if_neg (by simp)]
      exact h
  | tick =>
    obtain rfl := Option.some.inj hs
    have hl := timerTick_holds h.holds
    exact ⟨hl.holds_pending, h.erased.trans hl.pending_eq.symm⟩
  | dispatch =>
    rw [Option.map_map] at hs
    obtain ⟨r, hdispatch, rfl⟩ := Option.map_eq_some_iff.mp hs
    obtain ⟨l', hl, -, hdrain⟩ := timerDispatch_holds h.holds hdispatch
    rw [← h.erased] at hdrain
    obtain ⟨names, l₁, hd, hl₁⟩ := drainNamed_of_ringDrain hdrain
    have hnamed : namedAfter fuel l (t, .dispatch) = l₁ := by
      simp only [namedAfter, hd, Option.map_some, Option.getD_some]
    rw [hnamed]
    exact ⟨hl.holds_pending, hl₁.trans hl.pending_eq.symm⟩

/-! ## What the timer carries -/

/-- **What the timer that is followed carries**: there is one record of it
at most, which repeats, with this notice. -/
structure Carries (notice : ℕ × ℕ) (l : List Named) : Prop where
  single : (l.filter fun p => p.2 = followed).length ≤ 1
  record : ∀ p ∈ l, p.2 = followed → p.1.rep ≠ 0 ∧ (p.1.reactor, p.1.arg) = notice

namespace Carries

variable {notice : ℕ × ℕ}

theorem sublist (h : Carries notice l) (hl : l'.Sublist l) : Carries notice l' :=
  ⟨(hl.filter _).length_le.trans h.single, fun p hp => h.record p (hl.subset hp)⟩

/-- Another timer is armed. -/
theorem armOther (h : Carries notice l) (hp : p.2 ≠ followed) : Carries notice (armNamed now p l) := by
  refine ⟨?_, fun q hq hname => ?_⟩
  · rw [(armNamed_perm.filter _).length_eq, List.filter_cons_of_neg (by simpa using hp)]
    exact h.single
  · rcases mem_armNamed.mp hq with rfl | hq
    · exact absurd hname hp
    · exact h.record q hq hname

/-- The timer itself is armed, when no record of it is left. -/
theorem armSelf (hnone : ∀ q ∈ l, q.2 ≠ followed) (hrep : p.1.rep ≠ 0)
    (hnotice : (p.1.reactor, p.1.arg) = notice) : Carries notice (armNamed now p l) := by
  have hfilter : (l.filter fun q => q.2 = followed) = [] :=
    List.filter_eq_nil_iff.mpr fun q hq => by simpa using hnone q hq
  refine ⟨?_, fun q hq hname => ?_⟩
  · rw [(armNamed_perm.filter _).length_eq, List.filter_cons, hfilter]
    split <;> simp
  · rcases mem_armNamed.mp hq with rfl | hq
    · exact ⟨hrep, hnotice⟩
    · exact absurd hname (hnone q hq)

/-- When the record of the timer is at the head, no other is. -/
theorem none_after (h : Carries notice (p :: l)) (hp : p.2 = followed) : ∀ q ∈ l, q.2 ≠ followed := by
  intro q hq hname
  have hmem : q ∈ l.filter fun p => p.2 = followed := List.mem_filter.mpr ⟨hq, by simpa using hname⟩
  have hsingle := h.single
  rw [List.filter_cons_of_pos (by simpa using hp), List.length_cons] at hsingle
  have := List.length_pos_of_mem hmem
  omega

end Carries

/-- A renewal that goes before the head is dropped with it, and the loop
does not end. -/
theorem drainNamed_of_sooner (hlen : (p :: l).length ≠ timerMaxCallback) (hdue : p.1.count ≤ timeNow)
    (hrep : p.1.rep ≠ 0) (hs : ∀ i, sooner c (p.1.renewed i) p.1) :
    drainNamed timeNow c fuel (p :: l) i = none := by
  induction fuel generalizing i with
  | zero => rfl
  | succ fuel ih =>
    have hexpire : (expireNamed c p l i).1 = p :: l := by
      rw [expireNamed, if_pos hrep, armNamed_cons, if_pos (hs i)]
      rfl
    rw [drainNamed, if_neg hlen, if_pos hdue, hexpire, ih]
    rfl

/-- **A turn of the loop**: it ends, or it notifies of the head, and the
list goes on without it, with its renewal if it repeats. -/
theorem drainNamed_turn {r : List (ℕ × ℕ) × List TimerFuture × ℕ}
    (hn : drainNamed timeNow c (fuel + 1) (p :: l) i = some (names, l', i'))
    (hr : ringDrain timeNow c (fuel + 1) ((p :: l).map Prod.fst) i = some r) :
    (names = [] ∧ l' = p :: l) ∨
      ∃ names' ns' l₁ i₁, names = p.2 :: names' ∧ r.1 = (p.1.reactor, p.1.arg) :: ns' ∧
        l₁ = (if p.1.rep ≠ 0 then armNamed c (p.1.renewed i, p.2) l else l) ∧
        drainNamed timeNow c fuel l₁ i₁ = some (names', l', i') ∧
        ringDrain timeNow c fuel (l₁.map Prod.fst) i₁ = some (ns', r.2) := by
  by_cases hfull : (p :: l).length = timerMaxCallback
  · rw [drainNamed, if_pos hfull] at hn
    obtain ⟨rfl, rfl, -⟩ : [] = names ∧ p :: l = l' ∧ i = i' := by simpa using hn
    exact .inl ⟨rfl, rfl⟩
  by_cases hdue : p.1.count ≤ timeNow
  · have hexpire : (expireNamed c p l i).1 =
        if p.1.rep ≠ 0 then armNamed c (p.1.renewed i, p.2) l else l := by
      unfold expireNamed
      split
      · next hrep =>
        have hs : ¬ sooner c (p.1.renewed i) p.1 := fun hs => by
          rw [drainNamed_of_sooner hfull hdue hrep fun _ => hs] at hn
          cases hn
        rw [armNamed_cons, if_neg hs]
        rfl
      · rfl
    obtain ⟨hlist, hinst⟩ := expireNamed_erase (c := c) (p := p) (l := l) (i := i)
    rw [drainNamed, if_neg hfull, if_pos hdue] at hn
    rw [List.map_cons, ringDrain, ← List.map_cons (f := Prod.fst), List.length_map, if_neg hfull,
      if_pos hdue, ← hlist, ← hinst] at hr
    obtain ⟨⟨names', l₂, i₂⟩, hn', heq⟩ := Option.map_eq_some_iff.mp hn
    obtain ⟨r', hr', rfl⟩ := Option.map_eq_some_iff.mp hr
    simp only [Prod.mk.injEq] at heq
    obtain ⟨rfl, rfl, rfl⟩ := heq
    exact .inr ⟨names', r'.1, _, _, rfl, rfl, hexpire, hn', hr'⟩
  · rw [drainNamed, if_neg hfull, if_neg hdue] at hn
    obtain ⟨rfl, rfl, -⟩ : [] = names ∧ p :: l = l' ∧ i = i' := by simpa using hn
    exact .inl ⟨rfl, rfl⟩

/-- **The dispatch loop and the timer that is followed**: it is not due, or
it is notified with what it carries, and then with no argument. -/
theorem Carries.drain {r : List (ℕ × ℕ) × List TimerFuture × ℕ} (h : Carries (R, x) l)
    (hn : drainNamed timeNow c fuel l i = some (names, l', i'))
    (hr : ringDrain timeNow c fuel (l.map Prod.fst) i = some r) :
    (ownNotices names r.1 = [] ∧ Carries (R, x) l') ∨
      ∃ n, ownNotices names r.1 = (R, x) :: List.replicate n (R, 0) ∧ Carries (R, 0) l' := by
  induction fuel generalizing l i x names r with
  | zero => cases hn
  | succ fuel ih =>
    cases l with
    | nil =>
      obtain ⟨rfl, rfl, -⟩ : [] = names ∧ [] = l' ∧ i = i' := by simpa [drainNamed] using hn
      exact .inl ⟨rfl, h⟩
    | cons p l =>
      rcases drainNamed_turn hn hr with ⟨rfl, rfl⟩ | ⟨names', ns', l₁, i₁, rfl, hns, hl₁, hn', hr'⟩
      · exact .inl ⟨rfl, h⟩
      · have hown : ownNotices (p.2 :: names') r.1 = if p.2 = followed then
            (p.1.reactor, p.1.arg) :: ownNotices names' ns' else ownNotices names' ns' := by
          rw [hns, ownNotices, List.zip_cons_cons, List.filter_cons]
          by_cases hp : p.2 = followed
          · simp [hp, ownNotices]
          · simp [hp, ownNotices]
        rw [hown]
        by_cases hp : p.2 = followed
        · -- the record expires: the next one has no argument
          obtain ⟨hrep, hnotice⟩ := h.record p (by simp) hp
          rw [if_pos hrep] at hl₁
          have hreactor : p.1.reactor = R := congrArg Prod.fst hnotice
          have hnext : Carries (R, 0) l₁ := by
            rw [hl₁]
            exact Carries.armSelf (h.none_after hp) hrep (by rw [← hreactor]; rfl)
          rw [if_pos hp, hnotice]
          refine .inr ?_
          rcases ih hnext hn' hr' with ⟨hnone, hleft⟩ | ⟨n, hmore, hleft⟩
          · exact ⟨0, by rw [hnone]; rfl, hleft⟩
          · exact ⟨n + 1, by rw [hmore]; rfl, hleft⟩
        · have hnext : Carries (R, x) l₁ := by
            have htail := h.sublist (List.sublist_cons_self p l)
            rw [hl₁]
            split
            · exact htail.armOther hp
            · exact htail
          rw [if_neg hp]
          exact ih hnext hn' hr'

/-! ## Over a run -/

/-- What was notified so far, and what the timer carries from now on. -/
def Delivered (R arg : ℕ) (r : List Named × List (ℕ × ℕ)) : Prop :=
  (r.2 = [] ∧ Carries (R, arg) r.1) ∨
    ∃ n, r.2 = (R, arg) :: List.replicate n (R, 0) ∧ Carries (R, 0) r.1

/-- The names after a call that is not a dispatch. -/
theorem Carries.call {notice : ℕ × ℕ} (h : Carries notice l) (hop : op ≠ .dispatch) :
    Carries notice (namedAfter fuel l (t, op)) := by
  cases op with
  | arm => exact h.armOther (by show (0 : ℕ) ≠ 1; decide)
  | cancel inst =>
    show Carries notice (if (timerCancel t inst).1 then _ else _)
    split
    · exact h.sublist List.eraseP_sublist
    · exact h
  | tick => exact h
  | dispatch => exact absurd rfl hop

/-- **The step lemma.** -/
theorem Delivered.step {r : List Named × List (ℕ × ℕ)} (h : Delivered R arg r)
    (hnames : Names r.1 t) (hs : timerCall fuel t op = some t') :
    Delivered R arg (namedAfter fuel r.1 (t, op), r.2 ++ expiriesOf fuel r.1 (t, op)) := by
  by_cases hop : op = .dispatch
  · subst hop
    unfold timerCall timerStep at hs
    rw [Option.map_map] at hs
    obtain ⟨d, hdispatch, rfl⟩ := Option.map_eq_some_iff.mp hs
    obtain ⟨l', -, -, hdrain⟩ := timerDispatch_holds hnames.holds hdispatch
    rw [← hnames.erased] at hdrain
    obtain ⟨names, l₁, hd, -⟩ := drainNamed_of_ringDrain hdrain
    have hnamed : namedAfter fuel r.1 (t, .dispatch) = l₁ := by
      simp only [namedAfter, hd, Option.map_some, Option.getD_some]
    have hexpiries : expiriesOf fuel r.1 (t, .dispatch) = ownNotices names d.1 := by
      simp only [expiriesOf, hd, hdispatch]
    rw [hnamed, hexpiries]
    rcases h with ⟨hnone, hcarries⟩ | ⟨n, hsome, hcarries⟩
    · rw [hnone, List.nil_append]
      exact hcarries.drain hd hdrain
    · refine .inr ?_
      rw [hsome]
      rcases hcarries.drain hd hdrain with ⟨hnone, hleft⟩ | ⟨m, hmore, hleft⟩
      · exact ⟨n, by rw [hnone, List.append_nil], hleft⟩
      · refine ⟨n + (m + 1), ?_, hleft⟩
        rw [hmore, ← List.replicate_succ, List.cons_append, List.replicate_append_replicate]
  · have hnone : expiriesOf fuel r.1 (t, op) = [] := by
      cases op with
      | arm | cancel | tick => rfl
      | dispatch => exact absurd rfl hop
    rw [hnone, List.append_nil]
    rcases h with ⟨hnil, hcarries⟩ | ⟨n, hsome, hcarries⟩
    · exact .inl ⟨hnil, hcarries.call hop⟩
    · exact .inr ⟨n, hsome, hcarries.call hop⟩

theorem follow_concat (p : Timer × TimerOp) : follow fuel l (hist ++ [p]) =
    (namedAfter fuel (follow fuel l hist).1 p,
      (follow fuel l hist).2 ++ expiriesOf fuel (follow fuel l hist).1 p) :=
  List.foldl_concat ..

/-- The run lemma. -/
theorem delivered_of_run (hl : Names l t₁) (hd : Delivered R arg (l, []))
    (hr : Run (timerCall fuel) t₁ hist t) (hreg : ∀ p ∈ hist, Registered p) :
    Names (follow fuel l hist).1 t ∧ Delivered R arg (follow fuel l hist) := by
  induction hr with
  | nil => exact ⟨hl, hd⟩
  | @snoc hist t t' op _ hs ih =>
    obtain ⟨hnames, hdelivered⟩ := ih fun p hp => hreg p (by simp [hp])
    rw [follow_concat]
    exact ⟨hnames.step (hreg _ (by simp)) hs, hdelivered.step hnames hs⟩

/-- The ring holds the pending timers in every run. -/
theorem holds_of_run (hr : Run (timerCall fuel) timerInit hist t)
    (hreg : ∀ p ∈ hist, Registered p) : t.Holds t.pending := by
  have hinit : Names [] timerInit :=
    ⟨timerInit_holds.holds_pending, timerInit_holds.pending_eq.symm⟩
  have hnone : Delivered 0 0 ([], []) := .inl ⟨rfl, by simp, by simp⟩
  exact (delivered_of_run hinit hnone hr hreg).1.holds

/-- **When a repeating timer delivers its argument**: at its first expiry,
and at the others if and only if it has none. -/
theorem delivers_argument_iff (hr₀ : Run (timerCall fuel) timerInit hist₀ t₀)
    (hreg₀ : ∀ p ∈ hist₀, Registered p) (hreactor : reactor ≠ reactorNullHandle) (hrep : 1 ≤ rep)
    (harm : timerArm t₀ reactor count rep arg = some (inst, t₁))
    (hr : Run (timerCall fuel) t₁ hist t) (hreg : ∀ p ∈ hist, Registered p) :
    let f : TimerFuture := ⟨reactor, (t₀.currentInstance + 1) % 2 ^ 32, count, rep, arg⟩
    ∀ k notice, (expiries fuel t₀ f hist)[k]? = some notice →
      (notice = (reactor, arg) ↔ arg = 0 ∨ k = 0) := by
  intro f k notice hnotice
  have hl₀ := holds_of_run hr₀ hreg₀
  obtain ⟨hl, -, hpending⟩ := pending_of_timerArm hl₀ hreactor harm
  have hnames : Names (armFollowed t₀ f) t₁ := by
    refine ⟨hl, ?_⟩
    rw [armFollowed, map_armNamed, List.map_map, hpending]
    exact congrArg _ (List.map_id _)
  have hcarries : Carries (reactor, arg) (armFollowed t₀ f) := by
    refine Carries.armSelf (fun q hq => ?_) (Nat.one_le_iff_ne_zero.mp hrep) rfl
    obtain ⟨g, -, rfl⟩ := List.mem_map.mp hq
    show (0 : ℕ) ≠ 1
    decide
  have hdelivered := (delivered_of_run hnames (.inl ⟨rfl, hcarries⟩) hr hreg).2
  rw [expiries] at hnotice
  rcases hdelivered with ⟨hnone, -⟩ | ⟨n, hsome, -⟩
  · simp [hnone] at hnotice
  · rw [hsome] at hnotice
    cases k with
    | zero =>
      obtain rfl := Option.some.inj hnotice
      exact iff_of_true rfl (.inr rfl)
    | succ k =>
      -- every later one is notified by a renewal, which has no argument
      have hlater : notice = (reactor, 0) := by
        rw [List.getElem?_cons_succ] at hnotice
        exact List.eq_of_mem_replicate (List.mem_of_getElem? hnotice)
      rw [hlater, Prod.mk.injEq]
      constructor
      · rintro ⟨-, harg⟩
        exact .inl harg.symm
      · rintro (harg | hzero)
        · exact ⟨rfl, harg.symm⟩
        · exact absurd hzero (Nat.succ_ne_zero k)

/-- Whether a call is for a registered reactor is said by the call. -/
theorem registered_of_events {ops : List TimerOp} (hevents : hist.map Prod.snd = ops)
    (hops : ∀ op ∈ ops, Registered (timerInit, op)) : ∀ p ∈ hist, Registered p := by
  rintro ⟨t, op⟩ hp
  have hop := hops op (hevents ▸ List.mem_map_of_mem hp)
  cases op with
  | arm => exact hop
  | cancel | tick | dispatch => trivial

/-- A timer expires for the first time, with another one for the same
reactor. -/
theorem delivers_argument_first : ∃ t₀ inst t₁ t,
    Run (timerCall 8) timerInit (history (timerCall 8) [.arm 3 2 0 9] timerInit) t₀ ∧
      timerArm t₀ 3 1 5 7 = some (inst, t₁) ∧
      Run (timerCall 8) t₁ (history (timerCall 8) [.tick, .dispatch, .tick, .dispatch] t₁) t ∧
      (expiries 8 t₀ ⟨3, (t₀.currentInstance + 1) % 2 ^ 32, 1, 5, 7⟩
        (history (timerCall 8) [.tick, .dispatch, .tick, .dispatch] t₁))[0]? = some (3, 7) := by
  have heval : (runEvents (timerCall 8) [.arm 3 2 0 9] timerInit).any (fun t₀ =>
      (timerArm t₀ 3 1 5 7).any fun r =>
        (runEvents (timerCall 8) [.tick, .dispatch, .tick, .dispatch] r.2).isSome &&
          ((expiries 8 t₀ ⟨3, (t₀.currentInstance + 1) % 2 ^ 32, 1, 5, 7⟩
            (history (timerCall 8) [.tick, .dispatch, .tick, .dispatch] r.2))[0]?).isSome) = true := by
    decide +kernel
  obtain ⟨t₀, ht₀, heval⟩ := (Option.any_eq_true _ _).mp heval
  obtain ⟨⟨inst, t₁⟩, harm, heval⟩ := (Option.any_eq_true _ _).mp heval
  obtain ⟨hruns, hfirst⟩ := (Bool.and_eq_true _ _).mp heval
  obtain ⟨t, ht⟩ := Option.isSome_iff_exists.mp hruns
  obtain ⟨notice, hfirst⟩ := Option.isSome_iff_exists.mp hfirst
  obtain ⟨hr₀, hevents₀⟩ := run_history ht₀
  obtain ⟨hr, hevents⟩ := run_history ht
  have hnotice : notice = (3, 7) := (delivers_argument_iff hr₀
    (registered_of_events hevents₀ (by decide)) (by decide) (by decide) harm hr
    (registered_of_events hevents (by decide)) 0 notice hfirst).mpr (.inr rfl)
  exact ⟨t₀, inst, t₁, t, hr₀, harm, hr, by rw [hfirst, hnotice]⟩

/-- **The second expiry** has no argument. -/
theorem delivers_argument_fails_second : ∃ inst t₁ t,
    timerArm timerInit 3 1 1 7 = some (inst, t₁) ∧
      Run (timerCall 8) t₁ (history (timerCall 8) [.tick, .dispatch, .tick, .dispatch] t₁) t ∧
      expiries 8 timerInit ⟨3, (timerInit.currentInstance + 1) % 2 ^ 32, 1, 1, 7⟩
        (history (timerCall 8) [.tick, .dispatch, .tick, .dispatch] t₁) = [(3, 7), (3, 0)] ∧
      ¬ ∀ notice ∈ expiries 8 timerInit ⟨3, (timerInit.currentInstance + 1) % 2 ^ 32, 1, 1, 7⟩
        (history (timerCall 8) [.tick, .dispatch, .tick, .dispatch] t₁), notice = (3, 7) := by
  have heval : (timerArm timerInit 3 1 1 7).any (fun r =>
      (runEvents (timerCall 8) [.tick, .dispatch, .tick, .dispatch] r.2).isSome &&
        decide (expiries 8 timerInit ⟨3, (timerInit.currentInstance + 1) % 2 ^ 32, 1, 1, 7⟩
          (history (timerCall 8) [.tick, .dispatch, .tick, .dispatch] r.2) = [(3, 7), (3, 0)])) =
            true := by decide +kernel
  obtain ⟨⟨inst, t₁⟩, harm, heval⟩ := (Option.any_eq_true _ _).mp heval
  obtain ⟨hruns, hexpiries⟩ := (Bool.and_eq_true _ _).mp heval
  obtain ⟨t, ht⟩ := Option.isSome_iff_exists.mp hruns
  have hexpiries := of_decide_eq_true hexpiries
  refine ⟨inst, t₁, t, harm, (run_history ht).1, hexpiries, fun h => ?_⟩
  rw [hexpiries] at h
  exact absurd (h (3, 0) (by simp)) (by decide)

end Asx

end CncPneumatics
