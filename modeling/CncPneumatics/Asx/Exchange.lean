import CncPneumatics.Asx.TwoWire
/-!
# A transfer from end to end

The two drivers on a line without faults. Every byte that the master has
to send is received once, in its order, up to the ninth, which the slave
refuses and the master reports; and a read returns the bytes that the
application of the slave made ready for it, after all that was sent.
-/

namespace CncPneumatics

namespace Asx

variable {α : Type*} {process : ProcessData α} {l l' l'' : Link α} {t : TwiMaster}
  {s : TwiSlave × α} {bytes : List UInt8} {k sent : ℕ} {chip : UInt8}

/-- The callback of the application prepares data and never aborts. -/
def Willing (process : ProcessData α) : Prop :=
  ∀ twi app, ∃ data, (process twi app).1 = { twi with sendData := data }

theorem Willing.modest (h : Willing process) : Modest process := fun twi app => by
  obtain ⟨data, hr⟩ := h twi app
  exact ⟨data, twi.abort, hr⟩

/-- The bytes of a transaction, received one after the other. -/
def feed (process : ProcessData α) (bytes : List UInt8) (s : TwiSlave × α) : TwiSlave × α :=
  bytes.foldl (fun s data => (twiSlaveReadHandler process s.1 s.2 data).2) s

/-- The slave after it was addressed. -/
def addressed (s : TwiSlave × α) : TwiSlave × α := ((twiSlaveAddressMatchHandler s.1).2, s.2)

theorem addressed_eq (h : s.1.abort = false) : addressed s =
    ({ s.1 with
      status := .busy, result := .unknown, stopInterrupt := false
      bytesReceived := 0, bytesSent := 0 }, s.2) := by
  rw [addressed, twiSlaveAddressMatchHandler, if_neg (by rw [h]; simp)]

theorem tells_addressed (h : s.1.abort = false) : Tells [] 0 (addressed s).1 := by
  rw [addressed_eq h]
  exact ⟨rfl, rfl, rfl, Nat.zero_le _, h⟩

theorem tells_feed (hm : Modest process) (bytes' : List UInt8) (h : Tells bytes sent s.1) :
    Tells (bytes ++ bytes') sent (feed process bytes' s).1 := by
  induction bytes' generalizing bytes s with
  | nil => rwa [List.append_nil]
  | cons data bytes' ih =>
    have hdata := (h.receives hm s.2 data).1
    have := ih (s := (twiSlaveReadHandler process s.1 s.2 data).2) hdata
    rwa [List.append_assoc, List.singleton_append] at this

/-! ## The addresses -/

theorem addresses_shift (twi : TwiSlave) (h : chip <<< 1 >>> 1 = twi.address >>> 1) :
    Line.addresses (chip <<< 1) twi = true ∧ Line.addresses (chip <<< 1 ||| 1) twi = true := by
  have hsame : (chip <<< 1 ||| 1) >>> 1 = chip <<< 1 >>> 1 := by
    rw [← UInt8.toBitVec_inj]
    simp only [UInt8.toBitVec_shiftRight, UInt8.toBitVec_or, UInt8.toBitVec_shiftLeft]
    ext i hi
    simp
  exact ⟨by simpa [Line.addresses] using h, by simpa [Line.addresses, hsame] using h⟩

@[simp] theorem reads_shift (chip : UInt8) : Line.reads (chip <<< 1) = false := by
  have hne : chip <<< 1 &&& 1 ≠ 1 := by
    intro h
    rw [← UInt8.toBitVec_inj, UInt8.toBitVec_and, UInt8.toBitVec_shiftLeft] at h
    have := congrArg (fun v => v.getLsbD 0) h
    simp at this
  simpa [Line.reads] using hne

@[simp] theorem reads_or_one (value : UInt8) : Line.reads (value ||| 1) = true := by
  have h : (value ||| 1) &&& 1 = 1 := by
    rw [← UInt8.toBitVec_inj]
    ext i hi
    simp
    omega
  simpa [Line.reads] using h

/-! ## One step -/

namespace Link

theorem Reaches.head (h : Reaches process (l.step process) l') : Reaches process l l' :=
  Relation.ReflTransGen.head rfl h

theorem Reaches.refl : Reaches process l l := Relation.ReflTransGen.refl

theorem Reaches.trans (h : Reaches process l l') (h' : Reaches process l' l'') :
    Reaches process l l'' := Relation.ReflTransGen.trans h h'

/-- A turn of the slave. -/
theorem step_slave {st : SlaveStatus} (h : l.line.slaveStatus l.slave = some st) :
    l.step process = l.slaveStep process st := by
  rw [step, h]

/-- A turn of the master. -/
theorem step_master (st : MasterStatus) (h : l.line.masterStatus = some st)
    (hs : l.line.slaveStatus l.slave = none) : l.step process = l.masterStep st := by
  rw [step, hs, h]

/-- **The end of a transfer**: the line is idle, the callback of the master
was called with these statuses, and slave and application have the bytes
of `s`. -/
structure Ends (process : ProcessData α) (l : Link α) (statuses : List StatusCode)
    (s : TwiSlave × α) (l' : Link α) : Prop where
  reaches : Reaches process l l'
  line : l'.line = .idle
  reported : l'.reported = l.reported ++ statuses
  app : l'.app = s.2
  sendData : l'.slave.sendData = s.1.sendData
  receivedData : l'.slave.receivedData = s.1.receivedData
  abort : l'.slave.abort = s.1.abort

/-- What came before the end. -/
theorem Ends.prepend {statuses : List StatusCode} (h : Ends process l' statuses s l'')
    (hr : Reaches process l l') (statuses' : List StatusCode)
    (hreported : l'.reported = l.reported ++ statuses') :
    Ends process l (statuses' ++ statuses) s l'' where
  reaches := hr.trans h.reaches
  line := h.line
  reported := by rw [h.reported, hreported, List.append_assoc]
  app := h.app
  sendData := h.sendData
  receivedData := h.receivedData
  abort := h.abort

end Link

/-! ## The bytes to send -/

namespace TwiMaster

/-- What the master sends before it reads, or in all. -/
def outgoing (t : TwiMaster) : List UInt8 := if t.read then t.addr else t.addr ++ t.buffer

/-- The transfer after so many bytes. -/
def sentTo (t : TwiMaster) (k : ℕ) : TwiMaster :=
  { t with addrCount := min k t.addr.length, dataCount := k - t.addr.length }

@[simp] theorem outgoing_sentTo (t : TwiMaster) (k : ℕ) : (t.sentTo k).outgoing = t.outgoing := rfl

/-- **A write interrupt** sends the next byte while there is one. -/
theorem writeHandler_sentTo_of_lt (hk : k < t.outgoing.length) :
    (t.sentTo k).writeHandler = ⟨some (.mdata (t.outgoing.get ⟨k, hk⟩)), none, t.sentTo (k + 1)⟩ := by
  unfold writeHandler
  by_cases haddr : k < t.addr.length
  · have hmin : min k t.addr.length = k := Nat.min_eq_left haddr.le
    have hmin' : min (k + 1) t.addr.length = k + 1 := Nat.min_eq_left haddr
    have hget : t.outgoing.get ⟨k, hk⟩ = t.addr.get ⟨k, haddr⟩ := by
      simp only [outgoing, List.get_eq_getElem]
      split
      · rfl
      · exact List.getElem_append_left haddr
    rw [dif_pos (show (t.sentTo k).addrCount < (t.sentTo k).addr.length by
      show min k t.addr.length < t.addr.length; omega)]
    simp only [sentTo, hget, hmin, hmin', MasterStep.mk.injEq, true_and]
    rw [show k - t.addr.length = 0 by omega, show k + 1 - t.addr.length = 0 by omega]
  · have hread : t.read = false := by
      by_contra h
      rw [Bool.not_eq_false] at h
      rw [outgoing, if_pos h] at hk
      exact haddr hk
    have hlen : k - t.addr.length < t.buffer.length := by
      rw [outgoing, hread, if_neg (by simp), List.length_append] at hk
      omega
    have hget : t.outgoing.get ⟨k, hk⟩ = t.buffer.get ⟨k - t.addr.length, hlen⟩ := by
      simp only [outgoing, hread, List.get_eq_getElem, Bool.false_eq_true, if_false]
      exact List.getElem_append_right (by omega)
    rw [dif_neg (show ¬ (t.sentTo k).addrCount < (t.sentTo k).addr.length by
      show ¬ min k t.addr.length < t.addr.length; omega), dif_pos (show
        (t.sentTo k).dataCount < (t.sentTo k).buffer.length from hlen),
      if_neg (show ¬ (t.sentTo k).read = true by show ¬ t.read = true; rw [hread]; simp)]
    simp only [sentTo, hget, MasterStep.mk.injEq, true_and]
    rw [show min k t.addr.length = min (k + 1) t.addr.length by omega,
      show k - t.addr.length + 1 = k + 1 - t.addr.length by omega]

/-- After the last byte a read goes on with a repeated START. -/
theorem writeHandler_sentTo_read (hread : t.read = true) (hbuffer : t.buffer ≠ []) :
    (t.sentTo t.addr.length).writeHandler =
      ⟨some (.maddr (t.maddr ||| 1)), none,
        { t with addrCount := t.addr.length, dataCount := 0, maddr := t.maddr ||| 1 }⟩ := by
  have hpos := List.length_pos_iff.mpr hbuffer
  unfold writeHandler
  rw [dif_neg (by simp [sentTo]), dif_pos (by simpa [sentTo] using hpos), if_pos (by simpa [sentTo])]
  simp [sentTo]

/-- And where there is nothing to read the master stops. -/
theorem writeHandler_sentTo_all :
    (t.sentTo (t.addr ++ t.buffer).length).writeHandler =
      (t.sentTo (t.addr ++ t.buffer).length).finish (some .stop) .statusOk := by
  unfold writeHandler
  rw [dif_neg (by simp [sentTo]), dif_neg (by simp [sentTo])]

end TwiMaster

/-! ## The bytes from the master -/

/-- A willing slave takes a byte that fits. -/
theorem Tells.response (h : Tells bytes sent s.1) (hw : Willing process)
    (hlt : bytes.length < twisReceiveBufferSize) (data : UInt8) :
    (twiSlaveReadHandler process s.1 s.2 data).1.command = some .response := by
  have hcount := h.bytesReceived
  have hroom : s.1.bytesReceived < twisReceiveBufferSize := by omega
  obtain ⟨sends, hr⟩ := hw { { s.1 with stopInterrupt := true } with
    receivedData := s.1.receivedData.set s.1.bytesReceived data } s.2
  have habort : (twiSlaveStore process { s.1 with stopInterrupt := true } s.2 data hroom).1.abort =
      false := by
    simp only [twiSlaveStore, hr]
    exact h.abort
  unfold twiSlaveReadHandler
  rw [dif_pos hroom]
  dsimp only
  rw [if_neg (by rw [habort]; simp)]
  rfl

namespace Link

/-- A byte of the master, and the turn of the slave after it. -/
theorem step_byte (hline : l.line = .acked) (hmaster : l.master = t.sentTo k)
    (hk : k < t.outgoing.length) :
    (l.step process).step process =
      { l with
        master := t.sentTo (k + 1)
        slave := (twiSlaveReadHandler process l.slave l.app (t.outgoing.get ⟨k, hk⟩)).2.1
        app := (twiSlaveReadHandler process l.slave l.app (t.outgoing.get ⟨k, hk⟩)).2.2
        line := (Line.byte (t.outgoing.get ⟨k, hk⟩)).afterSlave
          (twiSlaveReadHandler process l.slave l.app (t.outgoing.get ⟨k, hk⟩)).1 } := by
  have hfirst : l.step process =
      { l with master := t.sentTo (k + 1), line := .byte (t.outgoing.get ⟨k, hk⟩) } := by
    rw [step_master .writeInterrupt (by rw [hline]; rfl) (by rw [hline]; rfl)]
    simp [masterStep, TwiMaster.interruptHandler, hmaster,
      TwiMaster.writeHandler_sentTo_of_lt hk, Line.afterMaster]
  rw [hfirst, step_slave rfl]
  simp [slaveStep, twiSlaveInterruptHandler, twiSlaveDataHandler]

/-- **The bytes of the master**, from any of them on: nine of them are
sent at most, and the line tells the master whether the ninth was
refused. -/
theorem reaches_sent (hw : Willing process) (rest : List UInt8) (hline : l.line = .acked)
    (hmaster : l.master = t.sentTo k) (hrest : t.outgoing.drop k = rest)
    (htells : Tells bytes sent l.slave) (hk : bytes.length = k)
    (hle : k ≤ twisReceiveBufferSize) :
    Reaches process l
      { l with
        master := t.sentTo (min 9 (k + rest.length))
        slave := (feed process (rest.take (9 - k)) (l.slave, l.app)).1
        app := (feed process (rest.take (9 - k)) (l.slave, l.app)).2
        line := if k + rest.length ≤ 8 then .acked else .nacked } := by
  have hsize : twisReceiveBufferSize = 8 := rfl
  induction rest generalizing l k bytes with
  | nil =>
    rw [List.take_nil, List.length_nil, Nat.add_zero, if_pos hle, Nat.min_eq_right (by omega)]
    have hsame : l = { l with master := t.sentTo k, line := .acked } := by
      rw [← hmaster, ← hline]
    exact hsame ▸ Reaches.refl
  | cons data rest ih =>
    have hlt : k < t.outgoing.length := by
      by_contra h
      rw [List.drop_eq_nil_of_le (by omega)] at hrest
      cases hrest
    have hget : t.outgoing.get ⟨k, hlt⟩ = data ∧ t.outgoing.drop (k + 1) = rest := by
      rw [List.drop_eq_getElem_cons hlt] at hrest
      exact List.cons.inj hrest
    refine Reaches.head (Reaches.head ?_)
    rw [step_byte hline hmaster hlt, hget.1]
    obtain ⟨hnext, hfull, -⟩ := htells.receives hw.modest l.app data
    rcases Nat.lt_or_eq_of_le hle with hroom | hfullk
    · -- the byte is taken, and the others follow
      have hanswer := htells.response (s := (l.slave, l.app)) hw (by omega) data
      rw [show (9 - k) = (9 - (k + 1)) + 1 by omega, List.take_succ_cons, List.length_cons,
        show k + (rest.length + 1) = k + 1 + rest.length by omega]
      exact ih (Line.afterSlave_response hanswer) rfl hget.2 hnext
        (by rw [List.length_append, List.length_singleton]; omega) hroom
    · -- the ninth byte
      subst hfullk
      have hanswer := hfull.mpr (show twisReceiveBufferSize ≤ bytes.length by omega)
      rw [List.length_cons, if_neg (by omega), Nat.min_eq_left (by omega),
        show List.take (9 - twisReceiveBufferSize) (data :: rest) = [data] from rfl]
      rw [Line.afterSlave_nack hanswer]
      exact Reaches.refl

/-! ## The bytes from the slave -/

/-- A byte of the slave, and the turn of the master after it. -/
theorem step_request (process : ProcessData α) (hline : l.line = .request) (hsent : l.slave.bytesSent = k)
    (hcount : l.master.dataCount = k) (hroom : k < twisSendBufferSize)
    (hlt : k < l.master.buffer.length) :
    (l.step process).step process =
      if k + 1 < l.master.buffer.length then
        { l with
          master := { l.master with
            buffer := l.master.buffer.set k l.slave.sendData[k], dataCount := k + 1 }
          slave := { l.slave with bytesSent := k + 1 } }
      else
        { l with
          master := { l.master with
            buffer := l.master.buffer.set k l.slave.sendData[k], dataCount := k + 1
            status := some .statusOk }
          slave := { l.slave with bytesSent := k + 1 }
          line := .refused, reported := l.reported ++ [.statusOk] } := by
  subst hsent
  have hfirst : l.step process =
      { l with
        slave := { l.slave with bytesSent := l.slave.bytesSent + 1 }
        line := .reply l.slave.sendData[l.slave.bytesSent] } := by
    rw [step_slave (by rw [hline]; rfl)]
    simp [slaveStep, twiSlaveInterruptHandler, twiSlaveDataHandler, twiSlaveWriteHandler, hline,
      hroom]
  rw [hfirst, step_master _ rfl rfl]
  simp only [masterStep, TwiMaster.interruptHandler, TwiMaster.readHandler, List.length_set, hcount]
  rw [if_pos hlt]
  split <;> simp [TwiMaster.finish, Line.afterMaster, hline]

/-- What a stop on the line comes to. -/
theorem ends_stopped (process : ProcessData α) (hline : l.line = .stopped) :
    ∃ l', Ends process l [] (l.slave, l.app) l' ∧ l'.master = l.master := by
  refine ⟨l.step process, ?_⟩
  have hr : Reaches process l (l.step process) := Reaches.head Reaches.refl
  unfold step at hr ⊢
  rw [hline] at hr ⊢
  -- the slave is interrupted if it received a byte
  cases hstop : l.slave.stopInterrupt
  · simp only [Line.slaveStatus_stopped, hstop, Line.masterStatus, Bool.false_eq_true, if_false] at hr ⊢
    exact ⟨⟨hr, rfl, (List.append_nil _).symm, rfl, rfl, rfl, rfl⟩, trivial⟩
  · simp only [Line.slaveStatus_stopped, hstop, if_true] at hr ⊢
    refine ⟨⟨hr, ?_, (List.append_nil _).symm, rfl, rfl, rfl, rfl⟩, rfl⟩
    rw [slaveStep, hline]
    rfl

/-- The end of a read. -/
theorem step_refused (process : ProcessData α) (hline : l.line = .refused) (hsent : 0 < l.slave.bytesSent) :
    l.step process =
      { l with slave := twiSlaveTransactionFinished l.slave .ok, line := .stopped } := by
  rw [step_slave (by rw [hline]; rfl)]
  simp [slaveStep, twiSlaveInterruptHandler, twiSlaveDataHandler, twiSlaveWriteHandler, hsent,
    hline]

/-- A byte set into the buffer of the master, after those before it. -/
theorem take_set_take_drop {n : ℕ} {buffer : List UInt8} {v : Vector UInt8 n} (hk : k < n)
    (hlen : k < buffer.length) (m : ℕ) :
    (buffer.set k v[k]).take (k + 1) ++ (v.toList.drop (k + 1)).take m =
      buffer.take k ++ (v.toList.drop k).take (m + 1) := by
  rw [List.take_set, List.take_succ_eq_append_getElem hlen,
    List.set_append_right _ _ (by simp [Nat.min_eq_left hlen.le]),
    List.drop_eq_getElem_cons (i := k) (by simpa using hk), List.take_succ_cons]
  simp [Nat.min_eq_left hlen.le]

/-- **The bytes of the slave**, from any of them to the last. -/
theorem ends_read (process : ProcessData α) (n : ℕ) (hline : l.line = .request)
    (hsent : l.slave.bytesSent = k) (hcount : l.master.dataCount = k) (hlen : l.master.buffer.length = k + (n + 1))
    (hroom : k + (n + 1) ≤ twisSendBufferSize) :
    ∃ l', Ends process l [.statusOk] (l.slave, l.app) l' ∧ l'.master.buffer =
      l.master.buffer.take k ++ (l.slave.sendData.toList.drop k).take (n + 1) := by
  induction n generalizing l k with
  | zero =>
    -- the master does not acknowledge the last byte
    have hlast := step_request process hline hsent hcount (by omega) (by omega)
    rw [if_neg (by omega)] at hlast
    have hstopped := step_refused process (l := (l.step process).step process)
      (by rw [hlast]) (by rw [hlast]; exact Nat.succ_pos k)
    obtain ⟨l', hends, hmaster⟩ := ends_stopped process (congrArg Link.line hstopped)
    have hends' := hends.prepend (Reaches.head (Reaches.head (Reaches.head Reaches.refl)))
      [.statusOk] (l := l) (by rw [hstopped, hlast])
    rw [hstopped, hlast] at hends' hmaster
    refine ⟨l', ⟨hends'.reaches, hends'.line, hends'.reported, hends'.app, hends'.sendData,
      hends'.receivedData, hends'.abort⟩, ?_⟩
    rw [hmaster, ← take_set_take_drop (by omega) (by omega) 0, List.take_zero, List.append_nil,
      List.take_of_length_le (by rw [List.length_set]; omega)]
  | succ n ih =>
    have hnext := step_request process hline hsent hcount (by omega) (by omega)
    rw [if_pos (by omega)] at hnext
    obtain ⟨l', hends, hbuffer⟩ :=
      ih (l := (l.step process).step process) (k := k + 1) (by rw [hnext]; exact hline)
        (by rw [hnext]) (by rw [hnext]) (by rw [hnext, List.length_set]; omega) (by omega)
    have hends' := hends.prepend (Reaches.head (Reaches.head Reaches.refl)) [] (l := l)
      (by rw [hnext, List.append_nil])
    rw [hnext] at hends' hbuffer
    exact ⟨l', ⟨hends'.reaches, hends'.line, hends'.reported, hends'.app, hends'.sendData,
      hends'.receivedData, hends'.abort⟩,
      hbuffer.trans (take_set_take_drop (by omega) (by omega) (n + 1))⟩

end Link

/-! ## Whole transfers -/

/-- The slave and its application after a transaction with these bytes, of
which the buffer takes the first ones. -/
def served (process : ProcessData α) (bytes : List UInt8) (s : TwiSlave × α) : TwiSlave × α :=
  feed process (bytes.take twisReceiveBufferSize) (addressed s)

/-- The slave keeps its address. -/
theorem served_address (hm : Modest process) (h : s.1.abort = false) {bytes : List UInt8} :
    (served process bytes s).1.address = s.1.address := by
  have hread (s : TwiSlave × α) (data : UInt8) :
      (twiSlaveReadHandler process s.1 s.2 data).2.1.address = s.1.address := by
    unfold twiSlaveReadHandler
    dsimp only
    split
    · next hlt =>
      obtain ⟨sends, abort, hr⟩ := hm { { s.1 with stopInterrupt := true } with
        receivedData := s.1.receivedData.set s.1.bytesReceived data } s.2
      split <;> simp [twiSlaveStore, hr, twiSlaveTransactionFinished]
    · rfl
  have hfeed (bytes : List UInt8) (s : TwiSlave × α) :
      (feed process bytes s).1.address = s.1.address := by
    induction bytes generalizing s with
    | nil => rfl
    | cons data bytes ih => exact (ih _).trans (hread s data)
  rw [served, hfeed, addressed_eq h]

/-- The bytes are in the buffer. -/
theorem served_received (hm : Modest process) (h : s.1.abort = false) (bytes : List UInt8) :
    (served process bytes s).1.receivedData.toList.take (min twisReceiveBufferSize bytes.length) =
      bytes.take twisReceiveBufferSize := by
  have htells := tells_feed hm (bytes.take twisReceiveBufferSize) (tells_addressed h)
  have hreceived := htells.received
  rwa [List.nil_append, List.take_take, Nat.min_self, htells.bytesReceived, List.nil_append,
    List.length_take, ← Nat.min_assoc, Nat.min_self] at hreceived

theorem feed_concat (bytes : List UInt8) (data : UInt8) :
    feed process (bytes ++ [data]) s =
      (twiSlaveReadHandler process (feed process bytes s).1 (feed process bytes s).2 data).2 := by
  rw [feed, List.foldl_append]
  rfl

/-- **A ninth byte** only ends the transaction. -/
theorem feed_ninth (hm : Modest process) (h : s.1.abort = false) (bytes : List UInt8) :
    feed process (bytes.take 9) (addressed s) =
      if bytes.length ≤ twisReceiveBufferSize then served process bytes s
      else (twiSlaveTransactionFinished { (served process bytes s).1 with stopInterrupt := true }
        .bufferOverflow, (served process bytes s).2) := by
  by_cases hle : bytes.length ≤ twisReceiveBufferSize
  · rw [if_pos hle, served, List.take_of_length_le hle, List.take_of_length_le (hle.trans (by decide))]
  · have hlt : twisReceiveBufferSize < bytes.length := by omega
    have height := tells_feed hm (bytes.take twisReceiveBufferSize) (tells_addressed h)
    have hfull : ¬ (served process bytes s).1.bytesReceived < twisReceiveBufferSize := by
      rw [served, height.bytesReceived, List.nil_append, List.length_take]
      omega
    rw [if_neg hle, show (9 : ℕ) = twisReceiveBufferSize + 1 from rfl,
      List.take_succ_eq_append_getElem hlt, feed_concat, ← served, twiSlaveReadHandler, dif_neg hfull]

namespace Link

/-- The slave is addressed. -/
theorem step_addressed (process : ProcessData α) {value : UInt8} (hline : l.line = .address value)
    (haddr : Line.addresses value l.slave = true) (habort : l.slave.abort = false) :
    l.step process =
      { l with
        slave := (addressed (l.slave, l.app)).1
        line := if Line.reads value then .request else .acked } := by
  rw [step_slave (by rw [hline, Line.slaveStatus_address haddr])]
  simp [slaveStep, twiSlaveInterruptHandler, twiSlaveAddressMatchHandler, habort, hline,
    Line.afterSlave_address, SlaveAnswer.commands, addressed]

/-- The transfer as the master starts it. -/
theorem start_of_free (hfree : l.master.locked = false) (chip : UInt8) (addr : List UInt8)
    (read : Bool) :
    ∃ t : TwiMaster, l.start chip addr read =
        { l with master := t.sentTo 0, line := .address t.maddr } ∧
      t.addr = addr ∧ t.buffer = l.master.buffer ∧ t.read = read ∧
      t.maddr = if addr ≠ [] ∨ read = false then chip <<< 1 else chip <<< 1 ||| 1 := by
  refine ⟨(l.master.transfer chip addr read).2.2, ?_, ?_⟩
  · simp [start, TwiMaster.transfer, hfree, Line.afterMaster, TwiMaster.sentTo]
  · simp [TwiMaster.transfer, hfree]

/-- **The bytes of the master**, from the start: nine of them are sent at
most, and the ninth is refused. -/
theorem reaches_outgoing (hw : Willing process) (hline : l.line = .address (chip <<< 1))
    (hmaster : l.master = t.sentTo 0) (habort : l.slave.abort = false)
    (hchip : chip <<< 1 >>> 1 = l.slave.address >>> 1) :
    ∃ l', Reaches process l l' ∧ l'.master = t.sentTo (min 9 t.outgoing.length) ∧
      (l'.slave, l'.app) = feed process (t.outgoing.take 9) (addressed (l.slave, l.app)) ∧
      l'.line = (if t.outgoing.length ≤ 8 then .acked else .nacked) ∧
      l'.reported = l.reported := by
  have haddressed := step_addressed process hline (addresses_shift l.slave hchip).1 habort
  rw [reads_shift, if_neg (by simp)] at haddressed
  have htells : Tells [] 0 (l.step process).slave := by
    rw [haddressed]
    exact tells_addressed habort
  have h := reaches_sent (l := l.step process) hw t.outgoing (by rw [haddressed])
    (by rw [haddressed]; exact hmaster) (List.drop_zero) htells rfl (Nat.zero_le _)
  rw [Nat.zero_add] at h
  refine ⟨_, Reaches.head h, rfl, ?_, rfl, ?_⟩
  · rw [haddressed]
    rfl
  · rw [haddressed]

/-- The end of a transfer that is refused. -/
theorem step_nacked (process : ProcessData α) (hline : l.line = .nacked) :
    l.step process =
      { l with
        master := { l.master with status := some .errIoError }
        line := .stopped, reported := l.reported ++ [.errIoError] } := by
  rw [step_master .busErrorOrNack (by rw [hline]; rfl) (by rw [hline]; rfl)]
  rfl

/-- What is refused comes to an end, and leaves the buffer of the master
alone. -/
theorem ends_nacked (process : ProcessData α) (hline : l.line = .nacked) :
    ∃ l', Ends process l [.errIoError] (l.slave, l.app) l' ∧
      l'.master.buffer = l.master.buffer := by
  have hnacked := step_nacked process hline
  obtain ⟨l', hends, hmaster⟩ := ends_stopped process (congrArg Link.line hnacked)
  have hends' := hends.prepend (Reaches.head Reaches.refl) [.errIoError] (l := l)
    (by rw [hnacked])
  rw [hnacked] at hends' hmaster
  exact ⟨l', hends', by rw [hmaster]⟩

/-- **The bytes of the master are sent**: either all of them were taken,
and the master goes on, or the ninth was refused, and the transfer ends
with an error. -/
theorem sent_or_ends (hw : Willing process) (hfree : l.master.locked = false)
    (habort : l.slave.abort = false) (hchip : chip <<< 1 >>> 1 = l.slave.address >>> 1)
    (addr : List UInt8) (read : Bool) (hfirst : addr ≠ [] ∨ read = false) :
    let bytes := if read then addr else addr ++ l.master.buffer
    let s := served process bytes (l.slave, l.app)
    ∃ t : TwiMaster, t.addr = addr ∧ t.buffer = l.master.buffer ∧ t.read = read ∧
      t.maddr = chip <<< 1 ∧
      if bytes.length ≤ twisReceiveBufferSize then
        Reaches process (l.start chip addr read)
          ⟨t.sentTo bytes.length, s.1, s.2, .acked, l.reported⟩
      else ∃ l', Ends process (l.start chip addr read) [.errIoError] s l' ∧
        l'.master.buffer = l.master.buffer := by
  intro bytes s
  obtain ⟨t, hstart, rfl, hbuffer, rfl, hmaddr⟩ := start_of_free (l := l) hfree chip addr read
  rw [if_pos hfirst] at hmaddr
  refine ⟨t, rfl, hbuffer, rfl, hmaddr, ?_⟩
  have hout : t.outgoing = bytes := by rw [TwiMaster.outgoing, hbuffer]
  obtain ⟨l₁, hsent, hmaster, hs₁, hline, hreported⟩ :=
    reaches_outgoing (l := { l with master := t.sentTo 0, line := .address t.maddr })
      (t := t) hw (by rw [hmaddr]) rfl habort hchip
  rw [hout] at hmaster hs₁ hline
  rw [feed_ninth hw.modest habort] at hs₁
  rw [hstart]
  by_cases hle : bytes.length ≤ twisReceiveBufferSize
  · rw [if_pos hle] at hs₁
    rw [if_pos (show bytes.length ≤ 8 from hle)] at hline
    rw [Nat.min_eq_right (show bytes.length ≤ 9 from hle.trans (by decide))] at hmaster
    rw [if_pos hle]
    have hl₁ : l₁ = ⟨t.sentTo bytes.length, s.1, s.2, .acked, l.reported⟩ := by
      obtain ⟨master, slave, app, line, reported⟩ := l₁
      obtain ⟨rfl, rfl⟩ := Prod.mk.inj hs₁
      simp only [Link.mk.injEq]
      exact ⟨hmaster, rfl, rfl, hline, hreported⟩
    exact hl₁ ▸ hsent
  · rw [if_neg hle] at hs₁
    rw [if_neg (show ¬ bytes.length ≤ 8 from hle)] at hline
    rw [if_neg hle]
    obtain ⟨l', hends, hmaster'⟩ := ends_nacked process hline
    have hends' := hends.prepend hsent [] (by rw [hreported, List.append_nil])
    rw [hs₁] at hends'
    exact ⟨l', ⟨hends'.reaches, hends'.line, hends'.reported, hends'.app, hends'.sendData,
      hends'.receivedData, hends'.abort⟩, by rw [hmaster', hmaster]; exact hbuffer⟩

/-- The slave is addressed to be read. -/
theorem ends_address_read (process : ProcessData α) (hline : l.line = .address (chip <<< 1 ||| 1))
    (habort : l.slave.abort = false) (hchip : chip <<< 1 >>> 1 = l.slave.address >>> 1)
    (hcount : l.master.dataCount = 0) (hne : l.master.buffer ≠ [])
    (hroom : l.master.buffer.length ≤ twisSendBufferSize) :
    ∃ l', Ends process l [.statusOk] (l.slave, l.app) l' ∧
      l'.master.buffer = l.slave.sendData.toList.take l.master.buffer.length := by
  have haddressed := step_addressed process hline (addresses_shift l.slave hchip).2 habort
  rw [reads_or_one, if_pos rfl] at haddressed
  have hlen : l.master.buffer.length = 0 + (l.master.buffer.length - 1 + 1) := by
    have := List.length_pos_iff.mpr hne
    omega
  rw [addressed_eq (s := (l.slave, l.app)) habort] at haddressed
  obtain ⟨l', hends, hbuffer⟩ := ends_read process (l := l.step process) (k := 0)
    (l.master.buffer.length - 1) (by rw [haddressed]) (by rw [haddressed])
    (by rw [haddressed]; exact hcount) (by rw [haddressed]; exact hlen) (by omega)
  have hends' := hends.prepend (Reaches.head Reaches.refl) [] (l := l)
    (by rw [haddressed, List.append_nil])
  rw [haddressed] at hends' hbuffer
  rw [List.take_zero, List.nil_append, List.drop_zero] at hbuffer
  refine ⟨l', ⟨hends'.reaches, hends'.line, hends'.reported, hends'.app, hends'.sendData,
    hends'.receivedData, hends'.abort⟩, ?_⟩
  rw [hbuffer, show l.master.buffer.length - 1 + 1 = l.master.buffer.length by omega]

/-- **A write, from end to end.** The slave receives the bytes of address
and buffer in their order, and its application processes each as it comes.
When they are more than there is room for, it gets the first of them and
the master an error, else the master gets `STATUS_OK`: nothing is lost
unseen. The callback of the master is called once. -/
theorem write_exchange (hw : Willing process) (hfree : l.master.locked = false)
    (habort : l.slave.abort = false) (chip : UInt8)
    (hchip : chip <<< 1 >>> 1 = l.slave.address >>> 1) (addr : List UInt8) :
    let bytes := addr ++ l.master.buffer
    let s := served process bytes (l.slave, l.app)
    s.1.receivedData.toList.take (min twisReceiveBufferSize bytes.length) =
        bytes.take twisReceiveBufferSize ∧
      ∃ l', Ends process (l.start chip addr false)
        [if bytes.length ≤ twisReceiveBufferSize then .statusOk else .errIoError] s l' := by
  intro bytes s
  refine ⟨served_received hw.modest habort bytes, ?_⟩
  obtain ⟨t, rfl, hbuffer, hread, -, hsent⟩ := sent_or_ends hw hfree habort hchip
    addr false (.inr rfl)
  simp only [Bool.false_eq_true, if_false] at hsent
  by_cases hle : bytes.length ≤ twisReceiveBufferSize
  · rw [if_pos hle] at hsent ⊢
    have hlast : Link.step process ⟨t.sentTo bytes.length, s.1, s.2, .acked, l.reported⟩ =
        ⟨{ t.sentTo bytes.length with status := some .statusOk }, s.1, s.2, .stopped,
          l.reported ++ [.statusOk]⟩ := by
      rw [step_master .writeInterrupt rfl rfl]
      have hall : (t.sentTo bytes.length).writeHandler =
          (t.sentTo bytes.length).finish (some .stop) .statusOk := by
        rw [show bytes = t.addr ++ t.buffer by rw [hbuffer]]
        exact TwiMaster.writeHandler_sentTo_all
      simp only [masterStep, TwiMaster.interruptHandler, hall]
      rfl
    obtain ⟨l', hends, -⟩ := ends_stopped process (congrArg Link.line hlast)
    have hends' := hends.prepend (hsent.trans (Reaches.head Reaches.refl))
      [.statusOk] (by rw [hlast]; rfl)
    rw [hlast] at hends'
    exact ⟨l', hends'⟩
  · rw [if_neg hle] at hsent ⊢
    obtain ⟨l', hends, -⟩ := hsent
    exact ⟨l', hends⟩

/-- A link with a slave that sends back what it receives. -/
def echoLink (buffer : List UInt8) : Link ℕ :=
  ⟨⟨0, 0, [], buffer, 0, 0, false, false, some .statusOk⟩, slaveStart 0x54, 0, .idle, []⟩

theorem echoData_willing : Willing echoData := fun twi _ => ⟨twi.receivedData, rfl⟩

/-- Nine bytes are one too many. -/
theorem write_exchange_nine :
    ∃ l', Ends echoData ((echoLink [2, 3, 4, 5, 6, 7, 8, 9]).start 0x54 [1] false) [.errIoError]
        (served echoData [1, 2, 3, 4, 5, 6, 7, 8, 9] (slaveStart 0x54, 0)) l' ∧
      l'.slave.receivedData.toList = [1, 2, 3, 4, 5, 6, 7, 8] := by
  obtain ⟨-, l', hends⟩ := write_exchange (l := echoLink [2, 3, 4, 5, 6, 7, 8, 9])
    echoData_willing rfl rfl 0x54 (by decide) [1]
  exact ⟨l', hends, by rw [hends.receivedData]; decide⟩

/-- **A read, from end to end.** When the slave took every byte of the
address, the master gets `STATUS_OK`, and its buffer the bytes that the
application made ready for it, after the last of them. When they are too
many, it gets an error and its buffer is left alone. The callback of the
master is called once. -/
theorem read_exchange (hw : Willing process) (hfree : l.master.locked = false)
    (habort : l.slave.abort = false) (chip : UInt8)
    (hchip : chip <<< 1 >>> 1 = l.slave.address >>> 1)
    (hne : l.master.buffer ≠ []) (hroom : l.master.buffer.length ≤ twisSendBufferSize)
    (addr : List UInt8) :
    let s := served process addr (l.slave, l.app)
    s.1.receivedData.toList.take (min twisReceiveBufferSize addr.length) =
        addr.take twisReceiveBufferSize ∧
      ∃ l', Ends process (l.start chip addr true)
          [if addr.length ≤ twisReceiveBufferSize then .statusOk else .errIoError] s l' ∧
        l'.master.buffer =
          if addr.length ≤ twisReceiveBufferSize then
            s.1.sendData.toList.take l.master.buffer.length
          else l.master.buffer := by
  intro s
  refine ⟨served_received hw.modest habort addr, ?_⟩
  by_cases hempty : addr = []
  · -- the master reads at once
    subst hempty
    obtain ⟨t, hstart, haddr, hbuffer, hread, hmaddr⟩ := start_of_free (l := l) hfree chip [] true
    rw [if_neg (by simp)] at hmaddr
    rw [hstart]
    obtain ⟨l', hends, hbuffer'⟩ := ends_address_read process
      (l := { l with master := t.sentTo 0, line := .address t.maddr }) (by rw [hmaddr]) habort hchip
      (Nat.zero_sub _) (by show t.buffer ≠ []; rwa [hbuffer])
      (by show t.buffer.length ≤ _; rwa [hbuffer])
    have hs : s = addressed (l.slave, l.app) := rfl
    rw [addressed_eq (s := (l.slave, l.app)) habort] at hs
    have hzero : ([] : List UInt8).length ≤ twisReceiveBufferSize := Nat.zero_le _
    rw [if_pos hzero, if_pos hzero, hs, ← hbuffer]
    exact ⟨l', ⟨hends.reaches, hends.line, hends.reported, hends.app, hends.sendData,
      hends.receivedData, hends.abort⟩, hbuffer'⟩
  · obtain ⟨t, rfl, hbuffer, hread, hmaddr, hsent⟩ := sent_or_ends hw hfree habort hchip
      addr true (.inl hempty)
    simp only [if_true] at hsent
    by_cases hle : t.addr.length ≤ twisReceiveBufferSize
    · rw [if_pos hle] at hsent ⊢
      rw [if_pos hle]
      -- the repeated START
      have hlast : Link.step process ⟨t.sentTo t.addr.length, s.1, s.2, .acked, l.reported⟩ =
          ⟨{ t with addrCount := t.addr.length, dataCount := 0, maddr := chip <<< 1 ||| 1 }, s.1,
            s.2, .address (chip <<< 1 ||| 1), l.reported⟩ := by
        rw [step_master .writeInterrupt rfl rfl]
        simp only [masterStep, TwiMaster.interruptHandler,
          TwiMaster.writeHandler_sentTo_read hread (by rwa [hbuffer])]
        rw [hmaddr]
        simp [Line.afterMaster]
      have htells := tells_feed hw.modest (t.addr.take twisReceiveBufferSize)
        (tells_addressed (s := (l.slave, l.app)) habort)
      have haddress : s.1.address = l.slave.address :=
        served_address (s := (l.slave, l.app)) hw.modest habort
      obtain ⟨l', hends, hbuffer'⟩ := ends_address_read process
        (l := Link.step process ⟨t.sentTo t.addr.length, s.1, s.2, .acked, l.reported⟩)
        (by rw [hlast]) (by rw [hlast]; exact htells.abort)
        (by rw [hlast]; exact hchip.trans (by rw [haddress]))
        (by rw [hlast]) (by rw [hlast]; rwa [hbuffer]) (by rw [hlast]; rwa [hbuffer])
      have hends' := hends.prepend (hsent.trans (Reaches.head Reaches.refl))
        [] (by rw [hlast, List.append_nil]; rfl)
      rw [hlast] at hends' hbuffer'
      exact ⟨l', hends', by rw [hbuffer', ← hbuffer]⟩
    · rw [if_neg hle] at hsent ⊢
      rw [if_neg hle]
      exact hsent

/-- Two bytes are sent and read back. -/
theorem read_exchange_two :
    ∃ l', Ends echoData ((echoLink [0, 0]).start 0x54 [7, 9] true) [.statusOk]
        (served echoData [7, 9] (slaveStart 0x54, 0)) l' ∧
      l'.master.buffer = [7, 9] := by
  obtain ⟨-, l', hends, hbuffer⟩ := read_exchange (l := echoLink [0, 0])
    echoData_willing rfl rfl 0x54 (by decide) (by decide) (by decide) [7, 9]
  exact ⟨l', hends, hbuffer.trans (by decide)⟩

end Link

end Asx

end CncPneumatics
