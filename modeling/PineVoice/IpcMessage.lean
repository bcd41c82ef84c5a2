import PineVoice.BootFlags

/-!
# Messages between the cores

A message is sent as packets that fit a slot of shared memory. The first packet starts with a
record of the lengths and of the queue that waits for an answer. `transfer_recv` takes the record
apart and collects packets until the announced length is reached.
-/

namespace PineVoice.Ipc

open NorFlash Bootab

/-- The flags with which a message is sent. -/
inductive Kind where
  /-- `MESSAGE_ASYNC`. -/
  | async
  /-- `MESSAGE_SYNC`. -/
  | sync
  /-- `MESSAGE_SYNC | MESSAGE_ACK`, the answer to a synchronous message. -/
  | ack
deriving DecidableEq

/-- `message_t`. -/
structure Message where
  /-- `flag`. -/
  kind : Kind
  /-- `SHM_CACHE` in `flag`, as an answer has it from its request. -/
  cached : Bool
  /-- `service_id`. -/
  serviceId : ℕ
  /-- `command`. -/
  command : ℕ
  /-- The `req_len` bytes at `req_data`. -/
  payload : List UInt8
  /-- `resp_len`. -/
  respLen : ℕ
  /-- `queue`. -/
  queue : ℕ
  /-- The length is an `int`. -/
  payload_lt : payload.length < 2^31
  /-- The length is an `int`. -/
  resp_lt : respLen < 2^31
  /-- The handle is an `int64_t`. -/
  queue_lt : queue < 2^64
deriving DecidableEq

/-- `shm_t`: the size of a slot and `SHM_CACHE`. -/
structure Shm where
  /-- `size`. -/
  size : ℕ
  /-- Whether the slot is cached. -/
  cache : Bool
  /-- A slot has room behind the record of the lengths. -/
  size_gt : 16 < size

/-- `phy_data_t` with the data it refers to. -/
structure Packet where
  /-- `flag`. -/
  flag : ℕ
  /-- `service_id`. -/
  serviceId : ℕ
  /-- `command`. -/
  command : ℕ
  /-- `sem`. -/
  sem : ℕ
  /-- The `len` bytes at `data`. -/
  data : List UInt8
deriving DecidableEq

/-- `MESSAGE_SYNC`, `MESSAGE_ACK` and `SHM_CACHE` of a packet. -/
def Kind.flag (cache : Bool) (k : Kind) : ℕ :=
  (match k with
    | .async => 0
    | .sync => 1
    | .ack => 3)+(if cache then 4 else 0)

/-- `MESSAGE_ACK` is set. -/
def isAck (flag : ℕ) : Bool := flag.testBit 1

/-- `MESSAGE_SYNC` is set. -/
def isSync (flag : ℕ) : Bool := flag.testBit 0

/-- `MESSAGE_PROBE` is set. -/
def isProbe (flag : ℕ) : Bool := flag.testBit 3

/-- `dispatch_t` in memory. -/
def dispatch (m : Message) : List UInt8 :=
  leBytes m.payload.length ++ (leBytes m.respLen ++
    (leBytes (m.queue % 2^32) ++ leBytes (m.queue/2^32)))

/-- The size of `dispatch_t`. -/
def dispatchSize : ℕ := 16

/-- What `transfer_recv` leaves in the message. -/
structure Received where
  /-- `flag`. -/
  flag : ℕ
  /-- `service_id`. -/
  serviceId : ℕ
  /-- `command`. -/
  command : ℕ
  /-- The bytes at `req_data`. -/
  payload : List UInt8
  /-- `resp_len`. -/
  respLen : ℕ
  /-- `queue`. -/
  queue : ℕ
deriving DecidableEq

/-- The flags of the packets of a message. -/
def Message.flag (shm : Shm) (m : Message) : ℕ := m.kind.flag (m.cached || shm.cache)

/-- A message as its receiver should see it. -/
def Message.received (shm : Shm) (m : Message) : Received where
  flag := m.flag shm
  serviceId := m.serviceId
  command := m.command
  payload := m.payload
  respLen := m.respLen
  queue := m.queue

/-- A packet of a message. -/
def Message.packet (shm : Shm) (m : Message) (data : List UInt8) : Packet :=
  ⟨m.flag shm, m.serviceId, m.command, m.queue, data⟩

/-- A list cut into pieces of a size. -/
def pieces (size : ℕ) (data : List UInt8) : List (List UInt8) :=
  if data = [] ∨ size = 0 then [] else data.take size :: pieces size (data.drop size)
termination_by data.length
decreasing_by
  rename_i h
  have hpos : 0 < data.length := List.length_pos_iff.mpr fun hnil => h (Or.inl hnil)
  have hsize : size ≠ 0 := fun hzero => h (Or.inr hzero)
  rw [List.length_drop]
  omega

/-- No data, no pieces. -/
theorem pieces_nil (size : ℕ) : pieces size [] = [] := by
  rw [pieces, if_pos (Or.inl rfl)]

/-- The first piece. -/
theorem pieces_cons {size : ℕ} {data : List UInt8} (hsize : 0 < size) (h : data ≠ []) :
    pieces size data = data.take size :: pieces size (data.drop size) := by
  rw [pieces, if_neg (by simp only [h, false_or]; omega)]

/-- The packets that are still to be sent for the rest of a payload. -/
def Message.restPackets (shm : Shm) (m : Message) (rest : List UInt8) : List Packet :=
  (pieces shm.size rest).map (m.packet shm)

/-- The packets of a message, in order. -/
def Message.packets (shm : Shm) (m : Message) : List Packet :=
  m.packet shm (dispatch m ++ m.payload.take (shm.size-dispatchSize)) ::
    m.restPackets shm (m.payload.drop (shm.size-dispatchSize))

section Packets

variable {shm : Shm} {m : Message}

theorem Shm.size_pos (shm : Shm) : 0 < shm.size := Nat.lt_of_le_of_lt (Nat.zero_le 16) shm.size_gt

/-- Nothing is left to send. -/
theorem restPackets_nil : m.restPackets shm [] = [] := by
  rw [Message.restPackets, pieces_nil, List.map_nil]

/-- The next packet of the rest. -/
theorem restPackets_cons {rest : List UInt8} (h : rest ≠ []) :
    m.restPackets shm rest =
      m.packet shm (rest.take shm.size) :: m.restPackets shm (rest.drop shm.size) := by
  rw [Message.restPackets, pieces_cons shm.size_pos h]
  rfl

/-- The packets carry the fields of the message. -/
theorem mem_restPackets {rest : List UInt8} {p : Packet} (h : p ∈ m.restPackets shm rest) :
    ∃ data, p = m.packet shm data := by
  obtain ⟨data, -, rfl⟩ := List.mem_map.mp h
  exact ⟨data, rfl⟩

/-- Every packet of a message carries its flags, its service and its command. -/
theorem mem_packets {p : Packet} (h : p ∈ m.packets shm) : ∃ data, p = m.packet shm data := by
  rcases List.mem_cons.mp h with rfl | hrest
  · exact ⟨_, rfl⟩
  · exact mem_restPackets hrest

/-- No message is a probe. -/
theorem isProbe_flag (k : Kind) (cache : Bool) : isProbe (k.flag cache) = false := by
  cases k <;> cases cache <;> decide

/-- The flag tells an answer. -/
theorem isAck_flag (k : Kind) (cache : Bool) : isAck (k.flag cache) = (k == .ack) := by
  cases k <;> cases cache <;> decide

/-- The flag tells if a caller waits. -/
theorem isSync_flag (k : Kind) (cache : Bool) : isSync (k.flag cache) = (k != .async) := by
  cases k <;> cases cache <;> decide

end Packets

/-- `total_len` of a first packet. -/
def totalLen (data : List UInt8) : ℕ := le32 (bufferMem data) 0

/-- `resp_len` of a first packet. -/
def respLenOf (data : List UInt8) : ℕ := le32 (bufferMem data) 4

/-- `queue` of a first packet. -/
def queueOf (data : List UInt8) : ℕ :=
  le32 (bufferMem data) 8+2^32*le32 (bufferMem data) 12

section Dispatch

/-- The record has a fixed length. -/
theorem dispatch_length (m : Message) : (dispatch m).length = dispatchSize := rfl

/-- A buffer holds its bytes. -/
theorem holds_bufferMem (bs : List UInt8) : Holds (bufferMem bs) 0 bs :=
  holds_of_getD 0 fun i _ => by rw [Nat.zero_add, bufferMem]

/-- The first packet starts with the record. -/
theorem holds_dispatch (m : Message) (data : List UInt8) :
    Holds (bufferMem (dispatch m ++ data)) 0 (dispatch m) :=
  ((holds_append _ 0 (dispatch m) data).mp (holds_bufferMem _)).1

/-- The record of the lengths reads back. -/
theorem dispatch_reads (m : Message) (data : List UInt8) :
    totalLen (dispatch m ++ data) = m.payload.length ∧
      respLenOf (dispatch m ++ data) = m.respLen ∧ queueOf (dispatch m ++ data) = m.queue := by
  have hpay := m.payload_lt
  have hresp := m.resp_lt
  have hqueue := m.queue_lt
  obtain ⟨htotal, hrest⟩ := (holds_append _ _ _ _).mp (holds_dispatch m data)
  obtain ⟨hrespLen, hrest⟩ := (holds_append _ _ _ _).mp hrest
  obtain ⟨hlow, hhigh⟩ := (holds_append _ _ _ _).mp hrest
  refine ⟨le32_leBytes htotal (by omega), le32_leBytes hrespLen (by omega), ?_⟩
  have hl : le32 (bufferMem (dispatch m ++ data)) 8 = m.queue % 2^32 :=
    le32_leBytes hlow (Nat.mod_lt _ (by decide))
  have hh : le32 (bufferMem (dispatch m ++ data)) 12 = m.queue/2^32 :=
    le32_leBytes hhigh (by omega)
  rw [queueOf, hl, hh]
  exact Nat.mod_add_div m.queue (2^32)

end Dispatch

end PineVoice.Ipc
