import Mathlib.Data.List.Pairwise
import Mathlib.Data.List.Sort
import Mathlib.Data.List.Perm.Basic
import Mathlib.Algebra.BigOperators.Group.List.Basic
import Mathlib.Algebra.GroupWithZero.Nat
/-!
# Agendas

An agenda is a list of entries, each due at a deadline and some of them
repeating with a period, kept in the order in which they fall due, ties in
the order in which they were entered. Draining it at a time makes every
entry fire that is due, and enters the repeating ones again, one period
later, as often as they are due. What fires, in which order, and what is
left is said without the loop: `Drained`.
-/

namespace CncPneumatics

variable {α : Type*}

/-- An entry of an agenda. -/
@[ext] structure Entry (α : Type*) where
  deadline : ℕ
  /-- The time between two firings, and 0 when there is one only. -/
  period : ℕ
  /-- The place in the order in which entries were made. -/
  serial : ℕ
  payload : α
deriving DecidableEq

variable {e f : Entry α} {l l' fired left : List (Entry α)} {now n issued issued' : ℕ}
  {again : α → α}

/-! ## The order -/

namespace Entry

/-- Another entry that falls due later, or at the same time and was
entered later. -/
def Before (e f : Entry α) : Prop :=
  e.serial ≠ f.serial ∧ (e.deadline < f.deadline ∨ e.deadline = f.deadline ∧ e.serial < f.serial)

theorem Before.deadline_le (h : e.Before f) : e.deadline ≤ f.deadline := by
  rcases h.2 with h | h <;> omega

/-- The entry without its serial number. -/
def content (e : Entry α) : ℕ × ℕ × α := (e.deadline, e.period, e.payload)

/-- The entry of the next firing. -/
def renew (again : α → α) (e : Entry α) (serial : ℕ) : Entry α :=
  ⟨e.deadline + e.period, e.period, serial, again e.payload⟩

end Entry

/-- In the order in which entries fall due. -/
def Ordered (l : List (Entry α)) : Prop := l.Pairwise Entry.Before

/-- Enter before the first entry with a later deadline. -/
def insertEntry (e : Entry α) (l : List (Entry α)) : List (Entry α) :=
  l.orderedInsert (fun e f => e.deadline < f.deadline) e

theorem insertEntry_perm (e : Entry α) (l : List (Entry α)) : (insertEntry e l).Perm (e :: l) :=
  List.perm_orderedInsert ..

theorem mem_insertEntry : f ∈ insertEntry e l ↔ f = e ∨ f ∈ l := List.mem_orderedInsert ..

@[simp] theorem insertEntry_length : (insertEntry e l).length = l.length + 1 :=
  List.orderedInsert_length ..

/-- **Entering the newest keeps the order.** -/
theorem Ordered.insertEntry (h : Ordered l) (hnew : ∀ f ∈ l, f.serial < e.serial) :
    Ordered (insertEntry e l) := by
  unfold CncPneumatics.insertEntry Ordered at *
  induction l with
  | nil => simp
  | cons f l ih =>
    rw [List.pairwise_cons] at h
    by_cases hlt : e.deadline < f.deadline
    · rw [List.orderedInsert_cons, if_pos hlt]
      refine List.pairwise_cons.mpr ⟨fun g hg => ⟨(hnew g hg).ne', .inl ?_⟩,
        List.pairwise_cons.mpr h⟩
      rcases List.mem_cons.mp hg with rfl | hg
      · exact hlt
      · have := (h.1 g hg).deadline_le
        omega
    · rw [List.orderedInsert_cons, if_neg hlt]
      refine List.pairwise_cons.mpr ⟨fun g hg => ?_, ih h.2 fun g hg => hnew g (by simp [hg])⟩
      rcases (List.mem_orderedInsert _).mp hg with rfl | hg
      · have := hnew f (by simp)
        refine ⟨this.ne, ?_⟩
        rcases Nat.lt_or_eq_of_le (Nat.le_of_not_lt hlt) with hd | hd
        · exact .inl hd
        · exact .inr ⟨hd, this⟩
      · exact h.1 g hg

/-- At most one entry has a serial number, so removing the first one that
has it removes all. -/
theorem Ordered.eraseP_eq_filter (h : Ordered l) (s : ℕ) :
    (l.eraseP fun f => f.serial = s) = l.filter fun f => f.serial ≠ s := by
  unfold Ordered at h
  induction l with
  | nil => rfl
  | cons f l ih =>
    rw [List.pairwise_cons] at h
    by_cases hf : f.serial = s
    · rw [List.eraseP_cons_of_pos (by simpa using hf), List.filter_cons_of_neg (by simpa using hf)]
      refine (List.filter_eq_self.mpr fun g hg => ?_).symm
      have := (h.1 g hg).1
      simp only [ne_eq, decide_not, Bool.not_eq_eq_eq_not, Bool.not_true, decide_eq_false_iff_not]
      omega
    · rw [List.eraseP_cons_of_neg (by simpa using hf), List.filter_cons_of_pos (by simpa using hf),
        ih h.2]

/-- Removing by the serial number removes that entry. -/
theorem Ordered.eraseP_serial [DecidableEq α] (h : Ordered l) (he : e ∈ l) :
    (l.eraseP fun f => f.serial = e.serial) = l.erase e := by
  unfold Ordered at h
  induction l with
  | nil => rfl
  | cons f l ih =>
    rw [List.pairwise_cons] at h
    by_cases hfe : f = e
    · subst hfe
      rw [List.eraseP_cons_of_pos (by simp), List.erase_cons_head]
    · have hel : e ∈ l := (List.mem_cons.mp he).resolve_left (Ne.symm hfe)
      rw [List.eraseP_cons_of_neg (by simpa using (h.1 e hel).1), List.erase_cons_tail (by simpa using hfe),
        ih h.2 hel]

/-! ## Firing -/

/-- How often an entry is due by the time `now`. -/
def firingCount (now : ℕ) (e : Entry α) : ℕ :=
  if now < e.deadline then 0 else if e.period = 0 then 1 else (now - e.deadline) / e.period + 1

/-- The firings of an entry that are due by the time `now`: one for each
of its deadlines. -/
def firings (again : α → α) (now : ℕ) (e : Entry α) : List (ℕ × ℕ × α) :=
  (List.range (firingCount now e)).map fun k =>
    (e.deadline + k * e.period, e.period, again^[k] e.payload)

/-- What is left of an entry at the time `now`: nothing when it has fired
for good, else its first deadline that is still to come. -/
def remaining (again : α → α) (now : ℕ) (e : Entry α) : Option (ℕ × ℕ × α) :=
  if e.period = 0 ∧ e.deadline ≤ now then none
  else some (e.deadline + firingCount now e * e.period, e.period, again^[firingCount now e] e.payload)

theorem firingCount_of_lt (h : now < e.deadline) : firingCount now e = 0 := if_pos h

theorem firings_of_lt (h : now < e.deadline) : firings again now e = [] := by
  rw [firings, firingCount_of_lt h]; rfl

theorem remaining_of_lt (again : α → α) (h : now < e.deadline) :
    remaining again now e = some e.content := by
  rw [remaining, if_neg (by omega), firingCount_of_lt h]
  simp [Entry.content]

/-- A one-shot entry that is due fires once. -/
theorem firings_of_once (h : e.deadline ≤ now) (hp : e.period = 0) :
    firings again now e = [e.content] := by
  rw [firings, firingCount, if_neg (by omega), if_pos hp]
  simp [Entry.content]

/-- A repeating entry that is due fires, and then as its renewal does. -/
theorem firingCount_of_renew (again : α → α) (h : e.deadline ≤ now) (hp : e.period ≠ 0) (s : ℕ) :
    firingCount now e = firingCount now (e.renew again s) + 1 := by
  unfold firingCount Entry.renew
  dsimp only
  rw [if_neg (by omega), if_neg hp, if_neg hp]
  by_cases hlt : now < e.deadline + e.period
  · rw [if_pos hlt, Nat.div_eq_of_lt (by omega)]
  · rw [if_neg hlt, show now - e.deadline = (now - (e.deadline + e.period)) + e.period by omega,
      Nat.add_div_right _ (by omega)]

theorem firings_of_renew (h : e.deadline ≤ now) (hp : e.period ≠ 0) (s : ℕ) :
    firings again now e = e.content :: firings again now (e.renew again s) := by
  unfold firings
  rw [firingCount_of_renew again h hp s, List.range_succ_eq_map, List.map_cons,
    List.map_map]
  refine congrArg₂ _ (by simp [Entry.content]) (List.map_congr_left fun k _ => ?_)
  simp only [Function.comp_apply, Entry.renew, Function.iterate_succ_apply, Prod.mk.injEq,
    and_true]
  rw [Nat.succ_mul]; omega

theorem remaining_of_renew (h : e.deadline ≤ now) (hp : e.period ≠ 0) (s : ℕ) :
    remaining again now e = remaining again now (e.renew again s) := by
  unfold remaining
  rw [firingCount_of_renew again h hp s, if_neg (by omega),
    if_neg (by simp [Entry.renew, hp])]
  simp only [Entry.renew, Function.iterate_succ_apply, Option.some.injEq, Prod.mk.injEq, and_true]
  rw [Nat.succ_mul]; omega

/-- No firing is earlier than the deadline of its entry, nor later than
the time at which it is due. -/
theorem firings_bounds {p : ℕ × ℕ × α} (hp : p ∈ firings again now e) :
    e.deadline ≤ p.1 ∧ p.1 ≤ now := by
  obtain ⟨k, hk, rfl⟩ := List.mem_map.mp hp
  rw [List.mem_range] at hk
  refine ⟨Nat.le_add_right _ _, ?_⟩
  unfold firingCount at hk
  split_ifs at hk with hlt hper
  · omega
  · rw [hper]; dsimp only; omega
  · have := Nat.mul_le_mul_right e.period (Nat.le_of_lt_succ hk)
    have := Nat.div_mul_le_self (now - e.deadline) e.period
    dsimp only; omega

/-- What is left comes within a period. -/
theorem remaining_le {c : ℕ × ℕ × α} (h : remaining again now e = some c) :
    c.1 ≤ max e.deadline (now + e.period) := by
  unfold remaining at h
  split_ifs at h with hgone
  cases h
  unfold firingCount
  split_ifs with hlt hper
  · dsimp only; omega
  · exact absurd ⟨hper, by omega⟩ hgone
  · have := Nat.div_mul_le_self (now - e.deadline) e.period
    dsimp only
    rw [Nat.succ_mul]
    omega

/-! ## Draining -/

/-- Fire the head while it is due, entering it again when it repeats. The
fuel bounds the number of firings. -/
def drain (again : α → α) (now : ℕ) :
    ℕ → List (Entry α) → ℕ → Option (List (Entry α) × List (Entry α) × ℕ)
  | 0, _, _ => none
  | _ + 1, [], issued => some ([], [], issued)
  | fuel + 1, e :: l, issued =>
    if e.deadline ≤ now then
      (if e.period ≠ 0 then drain again now fuel (insertEntry (e.renew again issued) l) (issued + 1)
        else drain again now fuel l issued).map fun r => (e :: r.1, r.2)
    else some ([], e :: l, issued)

/-- **What draining does**, said of the lists alone. -/
structure Drained (again : α → α) (now : ℕ) (l : List (Entry α)) (issued : ℕ)
    (fired left : List (Entry α)) (issued' : ℕ) : Prop where
  /-- What fires, fires in the order of the deadlines. -/
  sorted : fired.Pairwise fun e f => e.deadline ≤ f.deadline
  /-- Every entry fires once for each of its deadlines that is due. -/
  fired_perm : (fired.map Entry.content).Perm (l.flatMap (firings again now))
  /-- What is left is what is still to come. -/
  left_perm : (left.map Entry.content).Perm (l.filterMap (remaining again now))
  ordered : Ordered left
  /-- An entry that is not due stays as it is. -/
  kept : ∀ e ∈ l, now < e.deadline → e ∈ left
  /-- The others are renewals, with new serial numbers. -/
  renewed : ∀ e ∈ left, e ∈ l ∨ issued ≤ e.serial ∧ e.period ≠ 0
  /-- Each renewal takes one new number. -/
  issued_eq : issued' = issued + fired.countP fun e => e.period ≠ 0
  fresh : ∀ e ∈ left, e.serial < issued'

/-- Nothing is due in an ordered list whose head is not. -/
theorem Drained.of_not_due (h : Ordered l) (hfresh : ∀ e ∈ l, e.serial < issued)
    (hdue : ∀ e ∈ l, now < e.deadline) : Drained again now l issued [] l issued where
  sorted := .nil
  fired_perm := by
    rw [List.flatMap_eq_nil_iff.mpr fun e he => firings_of_lt (hdue e he)]; rfl
  left_perm := by
    rw [List.filterMap_congr fun e he => remaining_of_lt again (hdue e he),
      ← List.filterMap_eq_map]
    rfl
  ordered := h
  kept := fun _ he _ => he
  renewed := fun _ he => .inl he
  issued_eq := by simp
  fresh := hfresh

/-- No firing of an ordered list is earlier than its head. -/
theorem head_le_of_fired (h : Ordered (e :: l)) {p : ℕ × ℕ × α}
    (hp : p ∈ l.flatMap (firings again now)) : e.deadline ≤ p.1 := by
  obtain ⟨f, hf, hpf⟩ := List.mem_flatMap.mp hp
  have := ((List.pairwise_cons.mp h).1 f hf).deadline_le
  have := (firings_bounds hpf).1
  omega

/-- The head fires and is gone. -/
theorem Drained.cons_once (h : Ordered (e :: l)) (hdue : e.deadline ≤ now) (hper : e.period = 0)
    (hd : Drained again now l issued fired left issued') :
    Drained again now (e :: l) issued (e :: fired) left issued' where
  sorted := by
    refine List.pairwise_cons.mpr ⟨fun f hf => ?_, hd.sorted⟩
    exact head_le_of_fired h (hd.fired_perm.mem_iff.mp (List.mem_map_of_mem hf))
  fired_perm := by
    rw [List.flatMap_cons, firings_of_once hdue hper]
    exact hd.fired_perm.cons _
  left_perm := by
    rw [List.filterMap_cons_none (by rw [remaining, if_pos ⟨hper, hdue⟩])]
    exact hd.left_perm
  ordered := hd.ordered
  kept := by
    intro f hf hlt
    rcases List.mem_cons.mp hf with rfl | hf
    · omega
    · exact hd.kept f hf hlt
  renewed := fun f hf => (hd.renewed f hf).imp_left (List.mem_cons_of_mem _)
  issued_eq := by rw [hd.issued_eq, List.countP_cons_of_neg (by simpa using hper)]
  fresh := hd.fresh

/-- The head fires and is entered again. -/
theorem Drained.cons_renew (h : Ordered (e :: l)) (hdue : e.deadline ≤ now) (hper : e.period ≠ 0)
    (hd : Drained again now (insertEntry (e.renew again issued) l) (issued + 1) fired left issued') :
    Drained again now (e :: l) issued (e :: fired) left issued' where
  sorted := by
    refine List.pairwise_cons.mpr ⟨fun f hf => ?_, hd.sorted⟩
    have hmem := hd.fired_perm.mem_iff.mp (List.mem_map_of_mem hf)
    rw [((insertEntry_perm _ l).flatMap_right _).mem_iff, List.flatMap_cons,
      List.mem_append] at hmem
    rcases hmem with hmem | hmem
    · -- a later firing of the same entry
      have hle : e.deadline + e.period ≤ f.deadline := (firings_bounds hmem).1
      omega
    · exact head_le_of_fired h hmem
  fired_perm := by
    rw [List.flatMap_cons, firings_of_renew hdue hper issued]
    refine (hd.fired_perm.trans ((insertEntry_perm _ l).flatMap_right _)).cons _
  left_perm := by
    refine (hd.left_perm.trans ((insertEntry_perm _ l).filterMap _)).trans ?_
    simp only [List.filterMap_cons, remaining_of_renew hdue hper issued]
    exact .refl _
  ordered := hd.ordered
  kept := by
    intro f hf hlt
    rcases List.mem_cons.mp hf with rfl | hf
    · omega
    · exact hd.kept f (mem_insertEntry.mpr (.inr hf)) hlt
  renewed := by
    intro f hf
    rcases hd.renewed f hf with hmem | ⟨hs, hp⟩
    · rcases mem_insertEntry.mp hmem with rfl | hmem
      · exact .inr ⟨le_rfl, hper⟩
      · exact .inl (List.mem_cons_of_mem _ hmem)
    · exact .inr ⟨by omega, hp⟩
  issued_eq := by
    rw [hd.issued_eq, List.countP_cons_of_pos (by simpa using hper)]
    omega
  fresh := hd.fresh

/-- More fuel changes nothing. -/
theorem drain_mono {fuel fuel' : ℕ} {r : List (Entry α) × List (Entry α) × ℕ} (hle : fuel ≤ fuel')
    (h : drain again now fuel l issued = some r) : drain again now fuel' l issued = some r := by
  induction fuel generalizing fuel' l issued r with
  | zero => cases h
  | succ fuel ih =>
    obtain ⟨fuel', rfl⟩ : ∃ m, fuel' = m + 1 := ⟨fuel' - 1, by omega⟩
    cases l with
    | nil => exact h
    | cons e l =>
      rw [drain] at h ⊢
      by_cases hdue : e.deadline ≤ now
      · rw [if_pos hdue, Option.map_eq_some_iff] at h
        obtain ⟨r', h, hr⟩ := h
        rw [if_pos hdue, Option.map_eq_some_iff]
        refine ⟨r', ?_, hr⟩
        by_cases hper : e.period ≠ 0
        · rw [if_pos hper] at h ⊢; exact ih (by omega) h
        · rw [if_neg hper] at h ⊢; exact ih (by omega) h
      · rw [if_neg hdue] at h ⊢; exact h

/-- The number of firings that are due. -/
def dueCount (now : ℕ) (l : List (Entry α)) : ℕ := (l.map (firingCount now)).sum

theorem dueCount_insertEntry : dueCount now (insertEntry e l) = firingCount now e + dueCount now l := by
  unfold dueCount
  rw [((insertEntry_perm e l).map _).sum_eq, List.map_cons, List.sum_cons]

/-- **With fuel for every firing that is due, draining ends and does what
it should.** -/
theorem drain_eq_some (again : α → α) (now : ℕ) : ∀ (fuel : ℕ) (l : List (Entry α)) (issued : ℕ),
    dueCount now l < fuel → Ordered l → (∀ e ∈ l, e.serial < issued) →
    ∃ fired left issued', drain again now fuel l issued = some (fired, left, issued') ∧
      Drained again now l issued fired left issued' := by
  intro fuel
  induction fuel with
  | zero => intro l issued hfuel; omega
  | succ fuel ih =>
    intro l issued hfuel h hfresh
    cases l with
    | nil => exact ⟨[], [], issued, rfl, .of_not_due h hfresh (by simp)⟩
    | cons e l =>
      have htail := List.pairwise_cons.mp h
      rw [drain]
      by_cases hdue : e.deadline ≤ now
      · have hcount : dueCount now (e :: l) = firingCount now e + dueCount now l := by
          simp [dueCount]
        rw [if_pos hdue]
        by_cases hper : e.period ≠ 0
        · rw [if_pos hper]
          -- the renewed entry has one firing less to come, so the fuel suffices
          have hone := firingCount_of_renew again hdue hper issued
          obtain ⟨fired, left, issued', hdr, hd⟩ :=
            ih (insertEntry (e.renew again issued) l) (issued + 1)
              (by rw [dueCount_insertEntry]; omega)
              (Ordered.insertEntry htail.2 fun f hf => hfresh f (List.mem_cons_of_mem _ hf))
              (by
                intro f hf
                rcases mem_insertEntry.mp hf with rfl | hf
                · exact Nat.lt_succ_self _
                · have := hfresh f (List.mem_cons_of_mem _ hf); omega)
          exact ⟨e :: fired, left, issued', by rw [hdr]; rfl, hd.cons_renew h hdue hper⟩
        · rw [if_neg hper]
          have hone : firingCount now e = 1 := by
            rw [firingCount, if_neg (by omega), if_pos (by omega)]
          obtain ⟨fired, left, issued', hdr, hd⟩ := ih l issued (by omega) htail.2
            fun f hf => hfresh f (List.mem_cons_of_mem _ hf)
          exact ⟨e :: fired, left, issued', by rw [hdr]; rfl,
            hd.cons_once h hdue (by omega)⟩
      · rw [if_neg hdue]
        refine ⟨[], e :: l, issued, rfl, .of_not_due h hfresh fun f hf => ?_⟩
        rcases List.mem_cons.mp hf with rfl | hf
        · omega
        · have := (htail.1 f hf).deadline_le; omega

/-! ## One kind of entries

What draining does to the entries whose payload is of a kind that firing
again does not change. -/

section Kind

variable {kind : α → Bool}

/-- The entries with a payload of the kind. -/
def ofKind (kind : α → Bool) (l : List (Entry α)) : List (Entry α) :=
  l.filter fun e => kind e.payload

theorem ofKind_cons (e : Entry α) (l : List (Entry α)) :
    ofKind kind (e :: l) = if kind e.payload then e :: ofKind kind l else ofKind kind l :=
  List.filter_cons

theorem mem_ofKind : e ∈ ofKind kind l ↔ e ∈ l ∧ kind e.payload = true := List.mem_filter

theorem firings_kind (hagain : ∀ x, kind (again x) = kind x) {p : ℕ × ℕ × α}
    (hp : p ∈ firings again now e) : kind p.2.2 = kind e.payload := by
  obtain ⟨k, -, rfl⟩ := List.mem_map.mp hp
  clear hp
  dsimp only
  induction k with
  | zero => rfl
  | succ k ih => rw [Function.iterate_succ_apply', hagain, ih]

theorem remaining_kind (hagain : ∀ x, kind (again x) = kind x) {c : ℕ × ℕ × α}
    (hc : remaining again now e = some c) : kind c.2.2 = kind e.payload := by
  unfold remaining at hc
  split_ifs at hc
  cases hc
  dsimp only
  generalize firingCount now e = k
  induction k with
  | zero => rfl
  | succ k ih => rw [Function.iterate_succ_apply', hagain, ih]

theorem flatMap_firings_filter (hagain : ∀ x, kind (again x) = kind x) (l : List (Entry α)) :
    (l.flatMap (firings again now)).filter (fun p => kind p.2.2) =
      (ofKind kind l).flatMap (firings again now) := by
  induction l with
  | nil => rfl
  | cons e l ih =>
    rw [List.flatMap_cons, List.filter_append, ih]
    cases hk : kind e.payload
    · rw [ofKind_cons, if_neg (by simp [hk]), List.filter_eq_nil_iff.mpr, List.nil_append]
      intro p hp
      rw [firings_kind hagain hp, hk]
      simp
    · rw [ofKind_cons, if_pos hk, List.flatMap_cons, List.filter_eq_self.mpr]
      intro p hp
      rw [firings_kind hagain hp, hk]

theorem filterMap_remaining_filter (hagain : ∀ x, kind (again x) = kind x) (l : List (Entry α)) :
    (l.filterMap (remaining again now)).filter (fun c => kind c.2.2) =
      (ofKind kind l).filterMap (remaining again now) := by
  induction l with
  | nil => rfl
  | cons e l ih =>
    cases hr : remaining again now e with
    | none =>
      rw [List.filterMap_cons_none hr, ih]
      cases hk : kind e.payload
      · rw [ofKind_cons, if_neg (by simp [hk])]
      · rw [ofKind_cons, if_pos hk, List.filterMap_cons_none hr]
    | some c =>
      have hkc := remaining_kind hagain hr
      rw [List.filterMap_cons_some hr]
      cases hk : kind e.payload
      · rw [List.filter_cons_of_neg (by simp [hkc, hk]), ofKind_cons, if_neg (by simp [hk]), ih]
      · rw [List.filter_cons_of_pos (by rw [hkc, hk]), ofKind_cons, if_pos hk,
          List.filterMap_cons_some hr, ih]

/-- **Draining acts on the entries of each kind by themselves.** -/
theorem Drained.perm_ofKind (h : Drained again now l issued fired left issued')
    (hagain : ∀ x, kind (again x) = kind x) :
    ((ofKind kind fired).map Entry.content).Perm
        ((ofKind kind l).flatMap (firings again now)) ∧
      ((ofKind kind left).map Entry.content).Perm
        ((ofKind kind l).filterMap (remaining again now)) := by
  have hcontent : ∀ l : List (Entry α), (ofKind kind l).map Entry.content =
      (l.map Entry.content).filter fun c => kind c.2.2 := fun l => by
    rw [List.filter_map]
    rfl
  rw [hcontent, hcontent, ← flatMap_firings_filter hagain, ← filterMap_remaining_filter hagain]
  exact ⟨h.fired_perm.filter _, h.left_perm.filter _⟩

/-- An entry that is the only one of its kind and is not due stays. -/
theorem Drained.kind_later (h : Drained again now l issued fired left issued')
    (hagain : ∀ x, kind (again x) = kind x) (he : ofKind kind l = [e])
    (hlt : now < e.deadline) : ofKind kind fired = [] ∧
      ofKind kind left = [e] := by
  obtain ⟨hfired, hleft⟩ := h.perm_ofKind hagain
  rw [he, List.flatMap_singleton, firings_of_lt hlt] at hfired
  rw [he, List.filterMap_cons_some (remaining_of_lt _ hlt), List.filterMap_nil] at hleft
  have hmem : e ∈ ofKind kind l := by rw [he]; simp
  rw [mem_ofKind] at hmem
  refine ⟨List.map_eq_nil_iff.mp hfired.eq_nil, ?_⟩
  have hin : e ∈ ofKind kind left :=
    mem_ofKind.mpr ⟨h.kept e hmem.1 hlt, hmem.2⟩
  obtain ⟨f, hf⟩ := List.length_eq_one_iff.mp (by
    have := hleft.length_eq
    rwa [List.length_map] at this : (ofKind kind left).length = 1)
  rw [hf, List.mem_singleton] at hin
  rw [hf, hin]

/-- One that is due and does not repeat fires and is gone. -/
theorem Drained.kind_once (h : Drained again now l issued fired left issued')
    (hagain : ∀ x, kind (again x) = kind x) (he : ofKind kind l = [e])
    (hdue : e.deadline ≤ now) (hper : e.period = 0) :
    (ofKind kind fired).map Entry.content = [e.content] ∧
      ofKind kind left = [] := by
  obtain ⟨hfired, hleft⟩ := h.perm_ofKind hagain
  rw [he, List.flatMap_singleton, firings_of_once hdue hper] at hfired
  rw [he, List.filterMap_cons_none (by rw [remaining, if_pos ⟨hper, hdue⟩]),
    List.filterMap_nil] at hleft
  exact ⟨List.perm_singleton.mp hfired, List.map_eq_nil_iff.mp hleft.eq_nil⟩

/-- One that is due and repeats, but not before now, fires once and is
entered again. -/
theorem Drained.kind_renew (h : Drained again now l issued fired left issued')
    (hagain : ∀ x, kind (again x) = kind x) (he : ofKind kind l = [e])
    (hdue : e.deadline ≤ now) (hper : e.period ≠ 0) (hlt : now < e.deadline + e.period) :
    (ofKind kind fired).map Entry.content = [e.content] ∧
      ∃ s, ofKind kind left = [e.renew again s] := by
  obtain ⟨hfired, hleft⟩ := h.perm_ofKind hagain
  rw [he, List.flatMap_singleton, firings_of_renew hdue hper 0,
    firings_of_lt (show now < (e.renew again 0).deadline from hlt)] at hfired
  rw [he, List.filterMap_cons_some ((remaining_of_renew hdue hper 0).trans (remaining_of_lt _ hlt)),
    List.filterMap_nil] at hleft
  refine ⟨List.perm_singleton.mp hfired, ?_⟩
  obtain ⟨f, hf⟩ := List.length_eq_one_iff.mp (by
    have := hleft.length_eq
    rwa [List.length_map] at this : (ofKind kind left).length = 1)
  rw [hf, List.map_singleton, List.perm_singleton, List.cons.injEq] at hleft
  refine ⟨f.serial, ?_⟩
  obtain ⟨hcontent, -⟩ := hleft
  simp only [Entry.content, Entry.renew, Prod.mk.injEq] at hcontent
  rw [hf]
  congr 1
  ext <;> simp [Entry.renew, hcontent]

/-- A kind of which there is none stays empty. -/
theorem Drained.kind_nil (h : Drained again now l issued fired left issued')
    (hagain : ∀ x, kind (again x) = kind x) (he : ofKind kind l = []) :
    ofKind kind fired = [] ∧ ofKind kind left = [] := by
  obtain ⟨hfired, hleft⟩ := h.perm_ofKind hagain
  rw [he] at hfired hleft
  exact ⟨List.map_eq_nil_iff.mp hfired.eq_nil, List.map_eq_nil_iff.mp hleft.eq_nil⟩

end Kind

end CncPneumatics
