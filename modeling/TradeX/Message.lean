import TradeX.Order
import TradeX.Library.Buffer

/-!
# Messages

The records of `message.h` and the sizes of `common.h`. A message is its fields, where a thread
works with them, or its bytes, where it is copied to a buffer. Copies to and from a buffer that
go beyond its end are faults.
-/

namespace TradeX

/-- `MarketDataMessage`. -/
structure MarketDataMessage where
  tradeId : ℕ
  timestampNs : ℕ
  price : ℕ
  symbolId : ℕ
  quantity : ℕ
  seqNum : ℕ
  deriving DecidableEq, Repr

/-- `sizeof(MarketDataMessage)`, which is aligned to 64 bytes. -/
def sizeofMarketDataMessage : ℕ := 64

/-- `msg_per_packet`. -/
def msgPerPacket : ℕ := 23

theorem sizeofMarketDataMessage_pos : 0 < sizeofMarketDataMessage :=
  Nat.zero_lt_succ 63

theorem msgPerPacket_pos : 0 < msgPerPacket :=
  Nat.zero_lt_succ 22

/-- `MAX_MSG_SIZE`. -/
def maxMsgSize : ℕ := msgPerPacket * sizeofMarketDataMessage

/-- A `MarketDataMessage` as it lies in memory, padding included. -/
structure MessageBytes where
  bytes : List UInt8
  size : bytes.length = sizeofMarketDataMessage
  deriving DecidableEq

/-- The `seq_num` of the bytes of a message. -/
def seqNumOf (bytes : List UInt8) : ℕ :=
  Buffer.fieldAt bytes 32 8

/-- The bytes of messages, one behind the other. -/
def bytesOf (l : List MessageBytes) : List (List UInt8) :=
  l.map MessageBytes.bytes

theorem bytesOf_append (l l' : List MessageBytes) : bytesOf (l ++ l') = bytesOf l ++ bytesOf l' :=
  List.map_append

theorem length_of_mem_bytesOf {l : List MessageBytes} {f : List UInt8} (h : f ∈ bytesOf l) :
    f.length = sizeofMarketDataMessage := by
  obtain ⟨msg, -, rfl⟩ := List.mem_map.1 h
  exact msg.size

/-- `memcpy` into a buffer. -/
def copyTo (b : Buffer UInt8) (offset : ℕ) (l : List UInt8) : Except Fault (Buffer UInt8) :=
  if offset + l.length ≤ b.size then .ok (b.write offset l) else .error .badAccess

/-- `memcpy` from a buffer. -/
def copyFrom (b : Buffer UInt8) (offset n : ℕ) : Except Fault (List UInt8) :=
  if offset + n ≤ b.size then .ok (b.read offset n) else .error .badAccess

end TradeX
