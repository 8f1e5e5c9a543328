import Mathlib.Data.List.Basic
/-!
# Mailboxes that drop the oldest

A mailbox of a given capacity: posting to a full one drops the oldest
message. What becomes of the messages is kept in an account: each message
sent, named by its place among those sent, is taken, lost or still held,
the ones held are the last ones sent, and messages are taken in the order
in which they were sent.
-/

namespace CncPneumatics

variable {α : Type*} {cap k : ℕ} {x y : α} {l sent held : List α} {taken lost : List ℕ}

/-- Post a message, dropping the oldest when the mailbox is full. -/
def post (cap : ℕ) (l : List α) (x : α) : List α :=
  if l.length < cap then l ++ [x] else l.tail ++ [x]

theorem post_of_lt (h : l.length < cap) : post cap l x = l ++ [x] := if_pos h

theorem post_of_le (h : cap ≤ l.length) : post cap l x = l.tail ++ [x] := if_neg (by omega)

theorem post_ne_nil : post cap l x ≠ [] := by
  unfold post
  split <;> simp

theorem post_length_le (h : l.length ≤ cap) (hcap : 0 < cap) : (post cap l x).length ≤ cap := by
  unfold post
  split <;> simp <;> omega

theorem mem_post (h : y ∈ post cap l x) : y ∈ l ∨ y = x := by
  unfold post at h
  split at h
  · simpa using h
  · rcases List.mem_append.mp h with h | h
    · exact .inl (List.mem_of_mem_tail h)
    · exact .inr (by simpa using h)

theorem mem_foldl_post {ms : List α} (h : y ∈ ms.foldl (post cap) l) : y ∈ l ∨ y ∈ ms := by
  induction ms generalizing l with
  | nil => exact .inl h
  | cons m ms ih =>
    rcases ih h with h | h
    · rcases mem_post h with h | rfl
      · exact .inl h
      · exact .inr (by simp)
    · exact .inr (by simp [h])

/-- Messages for which there is room are all held. -/
theorem foldl_post_of_le {ms : List α} (h : l.length + ms.length ≤ cap) :
    ms.foldl (post cap) l = l ++ ms := by
  induction ms generalizing l with
  | nil => rw [List.foldl_nil, List.append_nil]
  | cons m ms ih =>
    rw [List.length_cons] at h
    rw [List.foldl_cons, post_of_lt (by omega), ih (by simp; omega), List.append_assoc,
      List.singleton_append]

theorem foldl_post_ne_nil {ms : List α} (h : l ≠ []) : ms.foldl (post cap) l ≠ [] := by
  induction ms generalizing l with
  | nil => exact h
  | cons m ms ih => exact ih post_ne_nil

/-- Only where nothing is posted can nothing be held. -/
theorem eq_nil_of_foldl_post {ms : List α} (h : ms.foldl (post cap) l = []) : ms = [] := by
  cases ms with
  | nil => rfl
  | cons m ms =>
    have hheld : ms.foldl (post cap) (post cap l m) ≠ [] := foldl_post_ne_nil post_ne_nil
    exact absurd h hheld

/-- What is seen of the messages is posted as they are. -/
theorem map_post {β : Type*} (f : α → β) : (post cap l x).map f = post cap (l.map f) (f x) := by
  unfold post
  rw [List.length_map]
  split <;> simp

theorem map_foldl_post {β : Type*} (f : α → β) (ms : List α) :
    (ms.foldl (post cap) l).map f = (ms.map f).foldl (post cap) (l.map f) := by
  induction ms generalizing l with
  | nil => rfl
  | cons m ms ih => rw [List.foldl_cons, ih, map_post, List.map_cons, List.foldl_cons]

/-- Messages that are all alike can be posted in any order. -/
theorem foldl_post_comm {ms ms' : List α} (h : ∀ y ∈ ms, y = x) (h' : ∀ y ∈ ms', y = x) :
    ms'.foldl (post cap) (ms.foldl (post cap) l) = ms.foldl (post cap) (ms'.foldl (post cap) l) := by
  rw [← List.foldl_append, ← List.foldl_append, List.eq_replicate_of_mem h,
    List.eq_replicate_of_mem h', List.replicate_append_replicate, List.replicate_append_replicate,
    Nat.add_comm]

/-- A mailbox holds no more than there is room for. -/
theorem foldl_post_length_le {ms : List α} (hcap : 0 < cap) (h : l.length ≤ cap) :
    (ms.foldl (post cap) l).length ≤ cap := by
  induction ms generalizing l with
  | nil => exact h
  | cons m ms ih => exact ih (post_length_le h hcap)

/-- **A mailbox for one message holds the last** of those posted. -/
theorem foldl_post_one (h : held.length ≤ 1) (ms : List α) :
    ms.foldl (post 1) held = (held ++ ms).getLast?.toList := by
  have hone : ∀ (l : List α) (x : α), l.length ≤ 1 → post 1 l x = [x] := by
    intro l x hl
    unfold post
    split
    · next hlt => rw [List.length_eq_zero_iff.mp (Nat.lt_one_iff.mp hlt), List.nil_append]
    · rw [List.length_eq_zero_iff.mp (show l.tail.length = 0 by simp; omega), List.nil_append]
  induction ms generalizing held with
  | nil =>
    match held, h with
    | [], _ => rfl
    | [x], _ => rfl
  | cons x ms ih =>
    rw [List.foldl_cons, hone held x h, ih (by simp), List.singleton_append,
      List.getLast?_append_of_ne_nil held (show x :: ms ≠ [] by simp)]

/-! ## Accounts -/

/-- **The account of a mailbox**: the places of the messages taken and of
those lost, among all the messages sent. -/
structure Account (sent : List α) (taken lost : List ℕ) (held : List α) : Prop where
  /-- The messages held are the last ones sent. -/
  suffix : held <:+ sent
  /-- Messages are taken in the order in which they were sent, each once. -/
  increasing : taken.Pairwise (· < ·)
  /-- Every message that is not held was taken or lost. -/
  settled : ∀ k, k + held.length < sent.length ↔ k ∈ taken ∨ k ∈ lost
  /-- No message was both. -/
  disjoint : ∀ k ∈ taken, k ∉ lost

namespace Account

/-- The messages held at first count as sent. -/
theorem start (l : List α) : Account l [] [] l where
  suffix := List.suffix_refl l
  increasing := .nil
  settled := by simp
  disjoint := by simp

theorem length_le (h : Account sent taken lost held) : held.length ≤ sent.length :=
  h.suffix.length_le

/-- The oldest message held, by its place. -/
theorem oldest (h : Account sent taken lost (y :: held)) :
    sent[sent.length - (held.length + 1)]? = some y := by
  obtain ⟨pre, rfl⟩ := h.suffix
  rw [List.length_append, List.length_cons, Nat.add_sub_cancel,
    List.getElem?_append_right (Nat.le_refl _), Nat.sub_self]
  rfl

/-- A message posted where there is room is held. -/
theorem post_room (h : Account sent taken lost held) :
    Account (sent ++ [x]) taken lost (held ++ [x]) where
  suffix := by
    obtain ⟨pre, rfl⟩ := h.suffix
    exact ⟨pre, by simp⟩
  increasing := h.increasing
  settled := by
    intro k
    rw [← h.settled k, List.length_append, List.length_append, List.length_singleton]
    omega
  disjoint := h.disjoint

/-- **A message posted to a full mailbox loses the oldest.** -/
theorem post_full (h : Account sent taken lost (y :: held)) :
    Account (sent ++ [x]) taken (lost ++ [sent.length - (held.length + 1)]) (held ++ [x]) where
  suffix := by
    obtain ⟨pre, rfl⟩ := h.suffix
    exact ⟨pre ++ [y], by simp⟩
  increasing := h.increasing
  settled := by
    intro k
    have hle := h.length_le
    rw [List.length_cons] at hle
    rw [List.mem_append, List.mem_singleton, ← or_assoc, ← h.settled k, List.length_append,
      List.length_append, List.length_singleton, List.length_cons]
    omega
  disjoint := by
    intro k hk hmem
    have hlt := (h.settled k).mpr (.inl hk)
    rw [List.length_cons] at hlt
    rcases List.mem_append.mp hmem with hmem | hmem
    · exact h.disjoint k hk hmem
    · rw [List.mem_singleton] at hmem
      omega

/-- **The message taken is the oldest.** -/
theorem take (h : Account sent taken lost (y :: held)) :
    Account sent (taken ++ [sent.length - (held.length + 1)]) lost held where
  suffix := (List.suffix_cons y held).trans h.suffix
  increasing := by
    refine List.pairwise_append.mpr ⟨h.increasing, List.pairwise_singleton .., fun k hk m hm => ?_⟩
    have hlt := (h.settled k).mpr (.inl hk)
    rw [List.length_cons] at hlt
    rw [List.mem_singleton] at hm
    omega
  settled := by
    intro k
    have hle := h.length_le
    rw [List.length_cons] at hle
    rw [List.mem_append, List.mem_singleton, or_right_comm, ← h.settled k, List.length_cons]
    omega
  disjoint := by
    intro k hk hlost
    rcases List.mem_append.mp hk with hk | hk
    · exact h.disjoint k hk hlost
    · have hlt := (h.settled k).mpr (.inr hlost)
      rw [List.length_cons] at hlt
      rw [List.mem_singleton] at hk
      omega

end Account

/-! ## A room of mailboxes

The mailboxes of a number of addressees, kept as one list of the messages
that wait, in the order in which they were posted. -/

/-- The messages that wait, each with its addressee. -/
abbrev Mailroom (α : Type*) := List (ℕ × α)

/-- What waits for an addressee. -/
def waiting (m : Mailroom α) (h : ℕ) : List α := (m.filter fun p => p.1 = h).map Prod.snd

/-- Post a message to an addressee, dropping the oldest of a full mailbox. -/
def deposit (cap : ℕ → ℕ) (m : Mailroom α) (h : ℕ) (x : α) : Mailroom α :=
  if (waiting m h).length < cap h then m ++ [(h, x)] else m.eraseP (fun p => p.1 = h) ++ [(h, x)]

/-- Take the oldest message of an addressee. -/
def collect (m : Mailroom α) (h : ℕ) : Option (α × Mailroom α) :=
  match waiting m h with
  | [] => none
  | x :: _ => some (x, m.eraseP fun p => p.1 = h)

/-- Post a number of messages, one after the other. -/
def depositAll (cap : ℕ → ℕ) (m : Mailroom α) (ms : Mailroom α) : Mailroom α :=
  ms.foldl (fun m p => deposit cap m p.1 p.2) m

section Mailroom

variable {m m' : Mailroom α} {caps : ℕ → ℕ} {h k : ℕ} {rest : List α}

@[simp] theorem waiting_nil : waiting ([] : Mailroom α) h = [] := rfl

theorem waiting_cons (p : ℕ × α) :
    waiting (p :: m) h = if p.1 = h then p.2 :: waiting m h else waiting m h := by
  unfold waiting
  by_cases hp : p.1 = h <;> simp [hp]

@[simp] theorem waiting_append : waiting (m ++ m') h = waiting m h ++ waiting m' h := by
  simp [waiting]

theorem mem_of_waiting (hx : x ∈ waiting m h) : (h, x) ∈ m := by
  unfold waiting at hx
  obtain ⟨⟨k, y⟩, hm, rfl⟩ := List.mem_map.mp hx
  simp only [List.mem_filter, decide_eq_true_eq] at hm
  obtain ⟨hm, rfl⟩ := hm
  exact hm

/-- Nothing waits at all when nothing waits for anybody. -/
theorem eq_nil_of_waiting (hall : ∀ h, waiting m h = []) : m = [] := by
  cases m with
  | nil => rfl
  | cons p m =>
    have := hall p.1
    rw [waiting_cons, if_pos rfl] at this
    cases this

/-- Erasing the first message of an addressee takes the head of its
mailbox and nothing from the others. -/
theorem waiting_erase :
    waiting (m.eraseP fun p => p.1 = h) k = if k = h then (waiting m h).tail else waiting m k := by
  induction m with
  | nil => split <;> rfl
  | cons p m ih =>
    by_cases hp : p.1 = h
    · rw [List.eraseP_cons_of_pos (by simpa using hp), waiting_cons, waiting_cons, if_pos hp]
      by_cases hk : k = h
      · rw [if_pos hk, hk, List.tail_cons]
      · rw [if_neg hk, if_neg fun heq => hk (heq.symm.trans hp)]
    · rw [List.eraseP_cons_of_neg (by simpa using hp), waiting_cons, ih, waiting_cons, if_neg hp,
        waiting_cons]
      by_cases hk : k = h
      · rw [if_neg fun heq => hp (heq.trans hk), if_pos hk, if_pos hk]
      · rw [if_neg hk, if_neg hk]

/-- **Depositing posts** to the mailbox of the addressee. -/
theorem waiting_deposit (x : α) : waiting (deposit caps m h x) k =
    if k = h then post (caps h) (waiting m h) x else waiting m k := by
  unfold deposit post
  by_cases hroom : (waiting m h).length < caps h
  · rw [if_pos hroom, if_pos hroom, waiting_append, waiting_cons, waiting_nil]
    by_cases hk : k = h
    · rw [if_pos hk.symm, if_pos hk, hk]
    · rw [if_neg (Ne.symm hk), if_neg hk, List.append_nil]
  · rw [if_neg hroom, if_neg hroom, waiting_append, waiting_cons, waiting_nil, waiting_erase]
    by_cases hk : k = h
    · rw [if_pos hk, if_pos hk.symm, if_pos hk]
    · rw [if_neg hk, if_neg (Ne.symm hk), if_neg hk, List.append_nil]

/-- Each mailbox gets its own messages, in their order. -/
theorem waiting_depositAll (ms : Mailroom α) :
    waiting (depositAll caps m ms) k = (waiting ms k).foldl (post (caps k)) (waiting m k) := by
  unfold depositAll
  induction ms generalizing m with
  | nil => rfl
  | cons p ms ih =>
    rw [List.foldl_cons, ih, waiting_deposit, waiting_cons]
    by_cases hk : p.1 = k
    · rw [if_pos hk.symm, if_pos hk, List.foldl_cons, hk]
    · rw [if_neg (Ne.symm hk), if_neg hk]

/-- Where nothing waits afterwards, nothing was posted. -/
theorem waiting_eq_nil_of_depositAll {ms : Mailroom α}
    (hnil : waiting (depositAll caps m ms) k = []) : waiting ms k = [] := by
  rw [waiting_depositAll] at hnil
  exact eq_nil_of_foldl_post hnil

/-- What waits afterwards waited before or was posted. -/
theorem mem_waiting_depositAll {ms : Mailroom α} (hx : x ∈ waiting (depositAll caps m ms) k) :
    x ∈ waiting m k ∨ x ∈ waiting ms k := by
  rw [waiting_depositAll] at hx
  exact mem_foldl_post hx

/-- Nobody gets a message that is not for them. -/
theorem waiting_eq_nil_iff : waiting m k = [] ↔ ∀ p ∈ m, p.1 ≠ k := by
  unfold waiting
  rw [List.map_eq_nil_iff, List.filter_eq_nil_iff]
  simp

/-- In a mailbox for one message the second takes the place of the first. -/
theorem deposit_deposit (hcap : caps h = 1) (hw : waiting m h = []) (x y : α) :
    deposit caps (deposit caps m h x) h y = m ++ [(h, y)] := by
  have hfirst : deposit caps m h x = m ++ [(h, x)] := by
    rw [deposit, hw, hcap, if_pos (by simp)]
  have hfull : ¬ (waiting (m ++ [(h, x)]) h).length < caps h := by
    rw [waiting_append, hw, waiting_cons, if_pos rfl, hcap]
    simp
  have hnone : ∀ p ∈ m, ¬ decide (p.1 = h) = true := fun p hp => by
    simpa using waiting_eq_nil_iff.mp hw p hp
  rw [hfirst, deposit, if_neg hfull, List.eraseP_append_right _ hnone,
    List.eraseP_cons_of_pos (by simp), List.append_nil]

/-- Nothing can be collected where nothing waits. -/
theorem collect_eq_none_iff : collect m h = none ↔ waiting m h = [] := by
  unfold collect
  cases waiting m h <;> simp

/-- **Collecting takes the oldest message** of the addressee. -/
theorem collect_eq_some (hc : collect m h = some (x, m')) :
    ∃ rest, waiting m h = x :: rest ∧
      ∀ k, waiting m' k = if k = h then rest else waiting m k := by
  unfold collect at hc
  cases hw : waiting m h with
  | nil => rw [hw] at hc; cases hc
  | cons y rest =>
    rw [hw] at hc
    simp only [Option.some.injEq, Prod.mk.injEq] at hc
    obtain ⟨rfl, rfl⟩ := hc
    refine ⟨rest, rfl, fun k => ?_⟩
    rw [waiting_erase, hw, List.tail_cons]

theorem collect_of_cons (hw : waiting m h = x :: rest) :
    ∃ m', collect m h = some (x, m') ∧
      ∀ k, waiting m' k = if k = h then rest else waiting m k := by
  cases hc : collect m h with
  | none => rw [collect_eq_none_iff.mp hc] at hw; cases hw
  | some r =>
    obtain ⟨rest', hw', hk⟩ := collect_eq_some hc
    rw [hw, List.cons.injEq] at hw'
    exact ⟨r.2, by rw [hw'.1], hw'.2 ▸ hk⟩

end Mailroom

end CncPneumatics
