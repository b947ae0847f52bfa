import BitTorrentBits.Wire.MessageStreams

/-!
# Both sides of a connection

`send_data` of `conn.c` beside the receiving side, and the two functions of `message.c` that
send and read a message over them. What every `send` will take is fixed in advance, and what it
has taken is kept.
-/

namespace BitTorrentBits

/-- How a call of `send` ends: the bytes it takes, if there are as many, whether it returns
before the timeout and without an error, and whether it finds the connection closed and raises
SIGPIPE. -/
structure SendOutcome where
  taken : Nat
  returned : Bool
  sigpipe : Bool
  deriving DecidableEq

/-- A connection with the outcomes of the sends to come and the bytes of those that were made. -/
structure Link where
  conn : Conn
  sends : List SendOutcome
  sent : List (List UInt8)
  deriving DecidableEq

/-- Whether `send_thread_fun` sets `ok` for a buffer of this size. -/
def SendOutcome.sendsAll (o : SendOutcome) (bufSize : Nat) : Bool :=
  let bytesSent := toInt (min o.taken bufSize : Nat)
  !o.sigpipe && (o.returned && decide (0 < bytesSent) && decide (bytesSent = toInt bufSize))

theorem SendOutcome.sigpipe_of_sendsAll {o : SendOutcome} {bufSize : Nat}
    (h : o.sendsAll bufSize = true) : o.sigpipe = false :=
  (Bool.not_eq_true' _).mp (Bool.and_eq_true_iff.mp h).1

theorem SendOutcome.take_of_sendsAll {o : SendOutcome} {buf : List UInt8}
    (hlen : buf.length < 2 ^ 31) (h : o.sendsAll buf.length = true) : buf.take o.taken = buf := by
  have hcount : toInt (min o.taken buf.length : Nat) = toInt buf.length :=
    of_decide_eq_true (Bool.and_eq_true_iff.mp (Bool.and_eq_true_iff.mp h).2).2
  rw [toInt_natCast (by omega), toInt_natCast hlen] at hcount
  exact List.take_of_length_le (by omega)

namespace Link

/-- With no outcome left the timeout expires. `send` is called without `MSG_NOSIGNAL` and nothing
handles the signal, so SIGPIPE ends the process, which is `none`. -/
def sendData (l : Link) (buf : List UInt8) : Option (Bool × Link) :=
  match l.sends with
  | [] => some (false, l)
  | o :: sends =>
    if o.sigpipe then none
    else some (o.sendsAll buf.length, { l with sends := sends, sent := l.sent ++ [buf.take o.taken] })

def sendMessageToConn (l : Link) (m : Message) : Option (Bool × Link) :=
  match m.encodeMessage with
  | none => some (false, l)
  | some buf => l.sendData buf

/-- `fresh` is what the new payload buffer happens to hold. -/
def readMessageFromConn (fresh : Nat → UInt8) (l : Link) : Option (Option Message × Link) := do
  let (m, conn) ← Message.readMessageFromConn fresh l.conn
  return (m, { l with conn := conn })

/-- The next send raises SIGPIPE. -/
def Breaks (l : Link) : Prop := ∃ o, l.sends.head? = some o ∧ o.sigpipe = true

/-- As many sends as this raise no SIGPIPE. -/
def Unbroken (l : Link) (count : Nat) : Prop := ∀ o ∈ l.sends.take count, o.sigpipe = false

/-- No send to come raises SIGPIPE. -/
def Listens (l : Link) : Prop := ∀ o ∈ l.sends, o.sigpipe = false

instance (l : Link) (count : Nat) : Decidable (l.Unbroken count) :=
  inferInstanceAs (Decidable (∀ o ∈ _, _))

theorem sendMessageToConn_eq (l : Link) (m : Message) :
    l.sendMessageToConn m = l.sendData m.wire := by
  rw [sendMessageToConn, Message.encodeMessage_wire]

theorem readMessageFromConn_eq_some {fresh : Nat → UInt8} {l l' : Link} {reply : Option Message} :
    l.readMessageFromConn fresh = some (reply, l') ↔
      ∃ c, Message.readMessageFromConn fresh l.conn = some (reply, c) ∧ l' = { l with conn := c } := by
  rw [readMessageFromConn]
  cases Message.readMessageFromConn fresh l.conn with
  | none => simp
  | some r =>
    obtain ⟨m, c⟩ := r
    simp [eq_comm]

theorem sendData_eq_none {l : Link} {buf : List UInt8} : l.sendData buf = none ↔ l.Breaks := by
  unfold sendData Breaks
  cases l.sends with
  | nil => simp
  | cons o sends => cases ho : o.sigpipe <;> simp [ho]

theorem sendData_cases {l l' : Link} {buf : List UInt8} {ok : Bool}
    (h : l.sendData buf = some (ok, l')) :
    (ok = false ∧ l' = l ∧ l.sends = []) ∨ ∃ o, l.sends = o :: l'.sends ∧ o.sigpipe = false ∧
      o.sendsAll buf.length = ok ∧ l'.conn = l.conn ∧ l'.sent = l.sent ++ [buf.take o.taken] := by
  unfold sendData at h
  split at h
  · cases h
    exact Or.inl ⟨rfl, rfl, by assumption⟩
  · split_ifs at h with hpipe
    cases h
    exact Or.inr ⟨_, by assumption, Bool.eq_false_iff.mpr hpipe, rfl, rfl, rfl⟩

theorem Unbroken.exists_sendData {l : Link} {count : Nat} (h : l.Unbroken (count + 1))
    (buf : List UInt8) : ∃ ok l', l.sendData buf = some (ok, l') ∧ l'.Unbroken count := by
  unfold sendData
  cases hsends : l.sends with
  | nil =>
    refine ⟨_, _, rfl, ?_⟩
    rw [Unbroken, hsends]
    simp
  | cons o sends =>
    rw [Unbroken, hsends, List.take_succ_cons, List.forall_mem_cons] at h
    simp only [h.1, Bool.false_eq_true, if_false]
    exact ⟨_, _, rfl, h.2⟩

theorem Listens.of_sends {l l' : Link} (hl : l.Listens) (h : l'.sends = l.sends) : l'.Listens :=
  fun o ho => hl o (h ▸ ho)

theorem Listens.sendData {l l' : Link} {buf : List UInt8} {ok : Bool} (hl : l.Listens)
    (h : l.sendData buf = some (ok, l')) : l'.Listens := by
  rcases sendData_cases h with ⟨-, rfl, -⟩ | ⟨o, hsends, -⟩
  · exact hl
  · intro o' ho'
    exact hl o' (hsends ▸ List.mem_cons_of_mem o ho')

theorem sendData_whole {l l' : Link} {buf : List UInt8} (hlen : buf.length < 2 ^ 31)
    (h : l.sendData buf = some (true, l')) : l'.conn = l.conn ∧ l'.sent = l.sent ++ [buf] := by
  rcases sendData_cases h with ⟨hfalse, -, -⟩ | ⟨o, -, -, hok, hconn, hsent⟩
  · contradiction
  · rw [SendOutcome.take_of_sendsAll hlen hok] at hsent
    exact ⟨hconn, hsent⟩

end Link

end BitTorrentBits
