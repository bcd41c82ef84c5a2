import Mathlib.Data.Vector.Defs
import PineVoice.UtilsDns

/-!
# The captive DNS server

`get_dns_request` and `dns_server_send` (`dns_server.c`). Name and transaction id of a request are
stored in a context that all requests share. The context is a memory from the address of `struct
dns_server_ctx` on, so that a decoded name that runs over `name[256]` overwrites the fields behind
it, at their offsets on the 32-bit target.
-/

namespace PineVoice.DnsServer

open Function Circular DomainName UtilsDns Option
open List hiding Vector

section Model

/-- A 16-bit number by its bytes. -/
structure Word16 where
  /-- The high byte. -/
  hi : UInt8
  /-- The low byte. -/
  lo : UInt8
  deriving DecidableEq

/-- The number in network byte order. -/
def Word16.wire (w : Word16) : List UInt8 := [w.hi, w.lo]

/-- Store a number; the processor is little-endian. -/
def store16 (mem : ℕ → UInt8) (ofs : ℕ) (w : Word16) : ℕ → UInt8 := copy mem ofs [w.lo, w.hi]

/-- Load a number. -/
def load16 (mem : ℕ → UInt8) (ofs : ℕ) : Word16 := ⟨mem (ofs+1), mem ofs⟩

/-- `sizeof(dns_ctx->name)`. -/
def nameSize : ℕ := 256

/-- The offset of `txid`. -/
def txidOfs : ℕ := 256

/-- The offset of `nquestions`. -/
def nquestionsOfs : ℕ := 258

/-- The offset of `upcb1`. -/
def upcb1Ofs : ℕ := 264

/-- The offset of `addr1`. -/
def addr1Ofs : ℕ := 268

/-- The offset of `port1`. -/
def port1Ofs : ℕ := 272

/-- `SIZEOF_DNSANS_HDR`. -/
def sizeofDnsansHdr : ℕ := 12

/-- A received datagram. -/
structure Request where
  /-- Its `tot_len` bytes. -/
  payload : List UInt8
  /-- The pointer to the sender's address. -/
  addr : Vector UInt8 4
  /-- The sender's port. -/
  port : Word16

/-- A buffer of lwIP in one piece. -/
structure Pbuf where
  /-- Its memory. -/
  payload : ℕ → UInt8
  /-- Its length. -/
  totLen : ℕ

/-- `pbuf_put_at` ignores an offset behind the end. -/
def pbufPutAt (p : Pbuf) (offset : ℕ) (data : UInt8) : Pbuf :=
  if offset < p.totLen then { p with payload := update p.payload offset data } else p

/-- `pbuf_take_at` copies all of the data or nothing. -/
def pbufTakeAt (p : Pbuf) (data : List UInt8) (offset : ℕ) : Pbuf :=
  if offset < p.totLen ∧ offset+data.length ≤ p.totLen then
    { p with payload := copy p.payload offset data }
  else p

/-- `pbuf_realloc` only shrinks. -/
def pbufRealloc (p : Pbuf) (newLen : ℕ) : Pbuf :=
  if newLen ≥ p.totLen then p else { p with totLen := newLen }

/-- `hdr`: the id, and the flags and counts that all replies have. -/
def replyHeader (txid : Word16) : List UInt8 :=
  txid.wire ++ [0x81, 0x80, 0, 1, 0, 1, 0, 0, 0, 0]

/-- `qry.typ` and `qry.cls`. -/
def replyQuestion : List UInt8 := [0, 1, 0, 1]

/-- `qry.point` and what follows it: the address record. -/
def replyAnswer : List UInt8 :=
  [0xc0, 0x0c, 0, 1, 0, 1, 0, 0, 0, 0x3c, 0, 4, 0xc0, 0xa8, 0xa9, 1]

/-- The inner loop of `dns_server_send`: how far the next dot or zero is. -/
def partLen (mem : ℕ → UInt8) : ℕ → ℕ → Option ℕ
  | 0, _ => none
  | fuel+1, hostname =>
    if mem hostname = 0x2e ∨ mem hostname = 0 then some 0
    else (partLen mem fuel (hostname+1)).map (·+1)

/-- The outer loop: one label is written at `query_idx` in every round. -/
def queryLoop (mem : ℕ → UInt8) : ℕ → ℕ → ℕ → Pbuf → Option (Pbuf × ℕ)
  | 0, _, _, _ => none
  | fuel+1, hostname, queryIdx, rp =>
    (partLen mem (fuel+1) hostname).bind fun len =>
      let n := len % 2^8
      let rp := pbufPutAt rp queryIdx (UInt8.ofNat n)
      let rp := pbufTakeAt rp (load mem hostname (len % 2^16)) ((queryIdx+1) % 2^16)
      let queryIdx := (queryIdx+(n+1)) % 2^16
      if mem (hostname+len) = 0 then some (rp, queryIdx)
      else queryLoop mem fuel (hostname+len+1) queryIdx rp

/-- What is given to `udp_sendto`. -/
structure Reply where
  /-- `upcb1`. -/
  upcb1 : List UInt8
  /-- `addr1`. -/
  addr1 : List UInt8
  /-- `port1`. -/
  port1 : Word16
  /-- The datagram. -/
  bytes : List UInt8

/-- `dns_server_send`; `rp` is the memory of the buffer that `pbuf_alloc` returns, if any. -/
def dnsServerSend (fuel : ℕ) (ctx : ℕ → UInt8) : Option (ℕ → UInt8) → Option (Option Reply)
  | none => some none
  | some fresh =>
    let rp := pbufTakeAt ⟨fresh, 512⟩ (replyHeader (load16 ctx txidOfs)) 0
    (queryLoop ctx fuel 0 sizeofDnsansHdr rp).map fun (rp, queryIdx) =>
      let rp := pbufPutAt rp queryIdx 0
      let queryIdx := (queryIdx+1) % 2^16
      let rp := pbufTakeAt rp (replyQuestion ++ replyAnswer) queryIdx
      let rp := pbufRealloc rp ((queryIdx+20) % 2^16)
      some ⟨load ctx upcb1Ofs 4, load ctx addr1Ofs 4, load16 ctx port1Ofs,
        load rp.payload 0 rp.totLen⟩

/-- `hdr.id` in host byte order. -/
def Request.txid (r : Request) : Word16 := ⟨r.payload.getD 0 0, r.payload.getD 1 0⟩

/-- `hdr.numquestions` in host byte order. -/
def Request.nquestions (r : Request) : Word16 := ⟨r.payload.getD 4 0, r.payload.getD 5 0⟩

/-- `len`: how much is copied to `name` at most, and the capacity given to the decoder. -/
def Request.capacity (r : Request) : ℕ :=
  if r.payload.length > nameSize-1 then nameSize-1 else r.payload.length

/-- The bytes copied to `name`. -/
def Request.name (r : Request) : List UInt8 := (r.payload.drop sizeofDnsansHdr).take r.capacity

/-- The sender, which `get_dns_request` stores first. -/
def storeSender (ctx : ℕ → UInt8) (r : Request) : ℕ → UInt8 :=
  store16 (copy ctx addr1Ofs r.addr.toList) port1Ofs r.port

/-- The fields of the header and the name as it came. -/
def copyRequest (ctx : ℕ → UInt8) (r : Request) : ℕ → UInt8 :=
  copy (store16 (store16 ctx txidOfs r.txid) nquestionsOfs r.nquestions) 0 r.name

/-- The first part of `get_dns_request`: what it stores in the context. -/
def storeRequest (ctx : ℕ → UInt8) (r : Request) : ℕ → UInt8 :=
  if r.payload.length < sizeofDnsansHdr then storeSender ctx r
  else
    let d := utilsDnsDomainGet (copyRequest (storeSender ctx r) r) 0 0 r.capacity
    if d.ret = 0 then
      let len := if 0 < d.len ∧ d.mem (d.len-1) = 0x2e then d.len-1 else d.len
      update d.mem len 0
    else d.mem

/-- `get_dns_request`: the context afterwards and the reply. -/
def getDnsRequest (fuel : ℕ) (ctx : ℕ → UInt8) (r : Request) (rp : Option (ℕ → UInt8)) :
    (ℕ → UInt8) × Option (Option Reply) :=
  let ctx := storeRequest ctx r
  (ctx, dnsServerSend fuel ctx rp)

/-- The context after a history of requests; a reply does not change it. -/
def after (ctx : ℕ → UInt8) (history : List Request) : ℕ → UInt8 := history.foldl storeRequest ctx

end Model

section Send

variable {mem : ℕ → UInt8}

variable {label : List UInt8} {fuel hostname : ℕ} {labels : List (List UInt8)}

/-- The next dot or zero is behind the label. -/
theorem partLen_eq {b : UInt8} (hread : ReadAt mem hostname (label ++ [b])) (hb : b = 0x2e ∨ b = 0)
    (hplain : 0x2e ∉ label ∧ 0 ∉ label) (hfuel : label.length < fuel) :
    partLen mem fuel hostname = some label.length := by
  induction label generalizing hostname fuel with
  | nil =>
    obtain ⟨fuel, rfl⟩ : ∃ n, fuel = n+1 := ⟨fuel-1, by omega⟩
    have hfirst : mem hostname = b := ((readAt_cons ..).mp hread).1
    rw [partLen, hfirst, if_pos hb]
    rfl
  | cons c label ih =>
    rw [length_cons] at hfuel
    obtain ⟨fuel, rfl⟩ : ∃ n, fuel = n+1 := ⟨fuel-1, by omega⟩
    rcases (readAt_cons ..).mp hread with ⟨hfirst, hrest⟩
    have hc : ¬(c = 0x2e ∨ c = 0) := by
      rintro (rfl | rfl)
      · exact hplain.1 mem_cons_self
      · exact hplain.2 mem_cons_self
    have hlabel : 0x2e ∉ label ∧ 0 ∉ label :=
      ⟨fun h => hplain.1 (mem_cons_of_mem c h), fun h => hplain.2 (mem_cons_of_mem c h)⟩
    rw [partLen, hfirst, if_neg hc, ih hrest hlabel (by omega)]
    rfl

/-- One round of the outer loop writes one label behind its length. -/
theorem label_written {queryIdx : ℕ} (rp : Pbuf) (hread : ReadAt mem hostname label)
    (hfits : queryIdx+label.length+1 < rp.totLen) (hlen : label.length < 2^8)
    (htot : rp.totLen < 2^16) :
    pbufTakeAt (pbufPutAt rp queryIdx (UInt8.ofNat (label.length % 2^8)))
        (load mem hostname (label.length % 2^16)) ((queryIdx+1) % 2^16) =
      { rp with payload := copy rp.payload queryIdx (UInt8.ofNat label.length :: label) } := by
  rw [Nat.mod_eq_of_lt hlen, Nat.mod_eq_of_lt (by omega : label.length < 2^16),
    Nat.mod_eq_of_lt (by omega : queryIdx+1 < 2^16), hread, pbufPutAt, if_pos (by omega), pbufTakeAt,
    if_pos ⟨by dsimp only; omega, by dsimp only; omega⟩, copy_cons]

/-- The outer loop writes the records of the labels whose text the memory holds. -/
theorem queryLoop_eq (queryIdx fuel : ℕ) (rp : Pbuf) (hne : labels ≠ [])
    (hplain : ∀ label ∈ labels, 0x2e ∉ label ∧ 0 ∉ label)
    (hread : ReadAt mem hostname (text labels)) (hshort : (records labels).length ≤ 2^8)
    (hfits : queryIdx+(records labels).length < rp.totLen) (htot : rp.totLen < 2^16)
    (hfuel : (records labels).length ≤ fuel) :
    queryLoop mem fuel hostname queryIdx rp =
      some ({ rp with payload := copy rp.payload queryIdx (records labels) },
        queryIdx+(records labels).length) := by
  induction labels generalizing hostname queryIdx fuel rp with
  | nil => exact absurd rfl hne
  | cons label labels ih =>
    have hrecords : (records (label :: labels)).length = label.length+1+(records labels).length := by
      rw [records, length_append, length_cons]
    rw [hrecords] at hshort hfits hfuel ⊢
    obtain ⟨fuel, rfl⟩ : ∃ n, fuel = n+1 := ⟨fuel-1, by omega⟩
    have hsum : (queryIdx+(label.length % 2^8+1)) % 2^16 = queryIdx+(label.length+1) := by
      rw [Nat.mod_eq_of_lt (by omega : label.length < 2^8), Nat.mod_eq_of_lt (by omega)]
    cases labels with
    | nil =>
      rcases (readAt_append label [0]).mp hread with ⟨hlabel, hend⟩
      have hzero : mem (hostname+label.length) = 0 := ((readAt_cons ..).mp hend).1
      rw [queryLoop, partLen_eq hread (.inr rfl) (hplain label mem_cons_self) (by omega), bind_some]
      simp only [hzero, hsum]
      rw [label_written rp hlabel (by omega) (by omega) htot]
      simp [records]
    | cons next labels =>
      rcases (readAt_append label (0x2e :: text (next :: labels))).mp hread with ⟨hlabel, hrest⟩
      rcases (readAt_cons ..).mp hrest with ⟨hdot, hnext⟩
      have hpart : ReadAt mem hostname (label ++ [0x2e]) :=
        (readAt_append label [0x2e]).mpr ⟨hlabel, (readAt_cons ..).mpr ⟨hdot, rfl⟩⟩
      rw [queryLoop, partLen_eq hpart (.inl rfl) (hplain label mem_cons_self) (by omega), bind_some]
      simp only [hdot, hsum]
      rw [label_written rp hlabel (by omega) (by omega) htot]
      refine (ih (queryIdx+(label.length+1)) fuel
        ⟨copy rp.payload queryIdx (UInt8.ofNat label.length :: label), rp.totLen⟩
        (cons_ne_nil _ _) (fun l hl => hplain l (mem_cons_of_mem label hl)) hnext
        (by omega) (by dsimp only; omega) htot (by omega)).trans ?_
      have hsplit : copy rp.payload queryIdx (records (label :: next :: labels)) =
          copy (copy rp.payload queryIdx (UInt8.ofNat label.length :: label))
            (queryIdx+(label.length+1)) (records (next :: labels)) := copy_append ..
      rw [hsplit, add_assoc]

/-- The datagram sent for a transaction id and labels. -/
def replyBytes (txid : Word16) (labels : List (List UInt8)) : List UInt8 :=
  replyHeader txid ++ (encode labels ++ (replyQuestion ++ replyAnswer))

theorem replyBytes_length (txid : Word16) (labels : List (List UInt8)) :
    (replyBytes txid labels).length = 12+(records labels).length+1+20 := by
  have hheader : (replyHeader txid).length = 12 := rfl
  have htail : (replyQuestion ++ replyAnswer).length = 20 := rfl
  rw [replyBytes, length_append, length_append, encode, length_append, length_singleton]
  omega

/-- The parts of a reply are written one behind the other. -/
theorem replyBytes_copied (fresh : ℕ → UInt8) (txid : Word16) (labels : List (List UInt8)) :
    copy (update (copy (copy fresh 0 (replyHeader txid)) 12 (records labels))
        (12+(records labels).length) 0) (12+(records labels).length+1)
        (replyQuestion ++ replyAnswer) = copy fresh 0 (replyBytes txid labels) := by
  rw [replyBytes]
  have hheader : 0+(replyHeader txid).length = 12 := rfl
  generalize replyQuestion ++ replyAnswer = tail
  rw [copy_append, hheader, encode, append_assoc, copy_append, cons_append, copy_cons, nil_append]

/-- The rounds of a loop over the name that are enough. -/
def nameRounds : ℕ := 256

/-- The reply for the labels whose text the context holds. -/
theorem dnsServerSend_eq {ctx : ℕ → UInt8} (fresh : ℕ → UInt8) (hne : labels ≠ [])
    (hplain : ∀ label ∈ labels, 0x2e ∉ label ∧ 0 ∉ label) (hread : ReadAt ctx 0 (text labels))
    (hshort : (records labels).length ≤ nameRounds) (hfuel : nameRounds ≤ fuel) :
    dnsServerSend fuel ctx (some fresh) = some (some ⟨load ctx upcb1Ofs 4, load ctx addr1Ofs 4,
      load16 ctx port1Ofs, replyBytes (load16 ctx txidOfs) labels⟩) := by
  have hrounds : (records labels).length ≤ 2^8 := hshort
  have hheader : pbufTakeAt ⟨fresh, 512⟩ (replyHeader (load16 ctx txidOfs)) 0 =
      ⟨copy fresh 0 (replyHeader (load16 ctx txidOfs)), 512⟩ := rfl
  have htail : (replyQuestion ++ replyAnswer).length = 20 := rfl
  have hlen := replyBytes_length (load16 ctx txidOfs) labels
  rw [dnsServerSend, hheader, sizeofDnsansHdr, queryLoop_eq 12 fuel _ hne hplain hread hrounds
    (by dsimp only; omega) (by dsimp only; omega) (hshort.trans hfuel), map_some]
  dsimp only
  rw [pbufPutAt, if_pos (by dsimp only; omega), Nat.mod_eq_of_lt (by omega : _ < 2^16), pbufTakeAt,
    if_pos (by dsimp only; omega), pbufRealloc, Nat.mod_eq_of_lt (by omega : _ < 2^16),
    if_neg (by dsimp only; omega)]
  rw [replyBytes_copied, ← hlen, load_copy]

end Send

section Store

/-- The copied bytes as a stream. -/
def Request.stream (r : Request) (i : ℕ) : UInt8 := r.name.getD i 0

/-- The header is whole and the name ends within the bytes that were copied. -/
def Request.SelfContained (r : Request) : Prop :=
  sizeofDnsansHdr ≤ r.payload.length ∧ (decode r.stream r.capacity).length < r.name.length

instance (r : Request) : Decidable r.SelfContained := inferInstanceAs (Decidable (_ ∧ _))

/-- A name without its final dot. -/
def trim (name : List UInt8) : List UInt8 :=
  if name.getLast? = some 0x2e then name.dropLast else name

theorem Request.name_length_le (r : Request) : r.name.length ≤ 255 := by
  rw [Request.name, length_take, Request.capacity, nameSize]
  split_ifs <;> omega

theorem trim_length_le (name : List UInt8) : (trim name).length ≤ name.length := by
  rw [trim]
  split_ifs
  · rw [length_dropLast]
    omega
  · exact le_refl _

/-- The zero that replaces the final dot or follows the name. -/
theorem trim_stored (mem : ℕ → UInt8) (name : List UInt8) :
    (if 0 < name.length ∧ copy mem 0 name (name.length-1) = 0x2e then name.length-1
      else name.length) = (trim name).length ∧
    ReadAt (update (copy mem 0 name) (trim name).length 0) 0 (trim name ++ [0]) := by
  rcases eq_nil_or_concat' name with rfl | ⟨front, b, rfl⟩
  · exact ⟨rfl, readAt_update_copy mem [] (Nat.zero_le 0)⟩
  · have hlen : (front ++ [b]).length = front.length+1 := length_append
    have hlast : copy mem 0 (front ++ [b]) front.length = b := by
      rw [copy_append, zero_add, copy_cons, copy_nil, update_self]
    rw [trim, getLast?_concat, hlen, Nat.add_sub_cancel, hlast, dropLast_concat]
    by_cases hdot : b = 0x2e
    · rw [if_pos ⟨Nat.succ_pos _, hdot⟩, if_pos (congrArg some hdot)]
      have hle : front.length ≤ (front ++ [b]).length := by omega
      have h := readAt_update_copy mem (front ++ [b]) hle
      rw [take_left] at h
      exact ⟨rfl, h⟩
    · rw [if_neg (fun h => hdot h.2), if_neg (fun h => hdot (Option.some.inj h))]
      have h := readAt_update_copy mem (front ++ [b]) (le_refl _)
      rw [take_length] at h
      exact ⟨hlen.symm, h⟩

theorem copyRequest_txid (ctx : ℕ → UInt8) (r : Request) :
    load16 (copyRequest ctx r) txidOfs = r.txid := by
  have hname := r.name_length_le
  rw [load16, copyRequest, txidOfs, copy_outside (.inr (by omega)), copy_outside (.inr (by omega))]
  rfl

variable {r : Request}

/-- The decoder sees the copied bytes only. -/
theorem decode_copyRequest (ctx : ℕ → UInt8) (hr : r.SelfContained) :
    decode (fun k => copyRequest ctx r (0+k)) r.capacity = decode r.stream r.capacity := by
  refine (decode_congr r.capacity fun j hj => ?_).symm
  have hin : j < r.name.length := lt_of_le_of_lt hj hr.2
  rw [copyRequest, copy_inside hin, Request.stream, getD_eq_getElem _ _ hin]

/-- What a request whose name ends within it leaves in the context. -/
theorem storeRequest_eq (ctx : ℕ → UInt8) (hr : r.SelfContained) :
    storeRequest ctx r =
      update (copy (copyRequest (storeSender ctx r) r) 0 (decode r.stream r.capacity))
        (trim (decode r.stream r.capacity)).length 0 := by
  rw [storeRequest, if_neg (not_lt.mpr hr.1), utilsDnsDomainGet_eq _ (.inl (le_refl 0)),
    decode_copyRequest _ hr]
  rw [if_pos rfl, (trim_stored ..).1]

/-- After a request whose name ends within it the context holds its id and its name. -/
theorem storeRequest_holds (ctx : ℕ → UInt8) (hr : r.SelfContained) :
    ReadAt (storeRequest ctx r) 0 (trim (decode r.stream r.capacity) ++ [0]) ∧
      load16 (storeRequest ctx r) txidOfs = r.txid := by
  have hname := r.name_length_le
  have hends := hr.2
  have htrim := trim_length_le (decode r.stream r.capacity)
  rw [storeRequest_eq ctx hr]
  refine ⟨(trim_stored ..).2, ?_⟩
  rw [← copyRequest_txid (storeSender ctx r) r, load16, load16, txidOfs, update_of_ne (by omega),
    update_of_ne (by omega), copy_outside (.inr (by omega)), copy_outside (.inr (by omega))]

/-- The reply to a request is built from the text that it leaves in the context. -/
theorem getDnsRequest_eq (ctx fresh : ℕ → UInt8) (hr : r.SelfContained) {labels : List (List UInt8)}
    {rest : List UInt8} {fuel : ℕ} (hne : labels ≠ [])
    (hplain : ∀ label ∈ labels, 0x2e ∉ label ∧ 0 ∉ label)
    (htext : trim (decode r.stream r.capacity) ++ [0] = text labels ++ rest)
    (hfuel : nameRounds ≤ fuel) :
    ∃ reply, (getDnsRequest fuel ctx r (some fresh)).2 = some (some reply) ∧
      reply.bytes = replyBytes r.txid labels := by
  rcases storeRequest_holds ctx hr with ⟨hread, htxid⟩
  rw [htext, readAt_append] at hread
  have hshort : (records labels).length ≤ nameRounds := by
    have hname := r.name_length_le
    have hends := hr.2
    have htrim := trim_length_le (decode r.stream r.capacity)
    have hlen := congrArg List.length htext
    rw [length_append, length_append, length_singleton, text_length hne, ← records_length] at hlen
    rw [nameRounds]
    omega
  refine ⟨_, dnsServerSend_eq fresh hne hplain hread.1 hshort hfuel, ?_⟩
  rw [← htxid]

end Store

section Echo

/-- A letter, a digit or a hyphen. -/
def HostByte (b : UInt8) : Prop :=
  (0x61 ≤ b ∧ b ≤ 0x7a) ∨ (0x41 ≤ b ∧ b ≤ 0x5a) ∨ (0x30 ≤ b ∧ b ≤ 0x39) ∨ b = 0x2d

/-- A label of a host name. -/
def HostLabel (label : List UInt8) : Prop :=
  1 ≤ label.length ∧ label.length ≤ 63 ∧ ∀ b ∈ label, HostByte b

variable {label : List UInt8} {labels : List (List UInt8)}

theorem HostLabel.plain (h : HostLabel label) : 0x2e ∉ label ∧ 0 ∉ label := by
  refine ⟨fun hmem => ?_, fun hmem => ?_⟩
  · exact absurd (h.2.2 _ hmem) (by unfold HostByte; decide)
  · exact absurd (h.2.2 _ hmem) (by unfold HostByte; decide)

theorem HostLabel.labelLength (h : HostLabel label) : LabelLength label :=
  ⟨h.1, lt_of_le_of_lt h.2.1 (by decide)⟩

/-- A query for a name: any header and anything behind the name. -/
def query (header : Vector UInt8 12) (labels : List (List UInt8)) (rest : List UInt8)
    (addr : Vector UInt8 4) (port : Word16) : Request :=
  ⟨header.toList ++ encode labels ++ rest, addr, port⟩

theorem query_name (header : Vector UInt8 12) (rest : List UInt8) (addr : Vector UInt8 4)
    (port : Word16) (htotal : (encode labels).length ≤ 255) :
    ∃ more, (query header labels rest addr port).name = encode labels ++ more ∧
      (encode labels).length ≤ (query header labels rest addr port).capacity := by
  have hheader : header.toList.length = 12 := header.length_toList
  have hcap : (encode labels).length ≤ (query header labels rest addr port).capacity := by
    rw [Request.capacity, nameSize, query, length_append, length_append]
    split_ifs <;> omega
  refine ⟨rest.take ((query header labels rest addr port).capacity-(encode labels).length), ?_, hcap⟩
  have hdrop : (header.toList ++ encode labels ++ rest).drop sizeofDnsansHdr =
      encode labels ++ rest := by
    rw [append_assoc]
    exact drop_left' hheader
  show ((header.toList ++ encode labels ++ rest).drop sizeofDnsansHdr).take _ = _
  rw [hdrop, take_append, take_of_length_le hcap]

/-- The name of a query is decoded whole, within the copied bytes. -/
theorem query_decoded (header : Vector UInt8 12) (rest : List UInt8) (addr : Vector UInt8 4)
    (port : Word16) (hlabels : ∀ label ∈ labels, HostLabel label)
    (htotal : (encode labels).length ≤ 255) :
    decode (query header labels rest addr port).stream (query header labels rest addr port).capacity =
        dotted labels ∧ (query header labels rest addr port).SelfContained := by
  have hlen := encode_length labels
  rcases query_name header rest addr port htotal with ⟨more, hname, hcap⟩
  have hstream : (query header labels rest addr port).stream =
      fun i => (encode labels ++ more).getD i 0 := by
    funext i
    rw [Request.stream, hname]
  have hdecode : decode (query header labels rest addr port).stream
      (query header labels rest addr port).capacity = dotted labels := by
    rw [hstream]
    exact decodeFrom_labels 0 labels (fun l hl => (hlabels l hl).labelLength)
      (readAt_getD (encode labels) more) (.inl (by omega))
  refine ⟨hdecode, ?_, ?_⟩
  · show 12 ≤ (header.toList ++ encode labels ++ rest).length
    rw [length_append, length_append, header.length_toList]
    omega
  · rw [hdecode, dotted_length, hname, length_append]
    omega

/-- The query's id is the beginning of its header. -/
theorem query_txid (header : Vector UInt8 12) (labels : List (List UInt8)) (rest : List UInt8)
    (addr : Vector UInt8 4) (port : Word16) :
    (query header labels rest addr port).txid.wire = header.toList.take 2 := by
  have hheader : header.toList.length = 12 := header.length_toList
  have hget : ∀ i, i < 12 →
      (query header labels rest addr port).payload.getD i 0 = header.toList.getD i 0 := by
    intro i hi
    show (header.toList ++ encode labels ++ rest).getD i 0 = _
    rw [append_assoc, getD_append _ _ _ _ (by omega)]
  rw [Request.txid, hget 0 (by omega), hget 1 (by omega)]
  generalize header.toList = bytes at hheader
  rcases bytes with _ | ⟨a, _ | ⟨b, more⟩⟩
  · exact absurd hheader (by decide)
  · rw [length_singleton] at hheader
    omega
  · rfl

/-- The reply to a query for a host name has the query's id, and its question is the name. -/
theorem query_echoed (ctx fresh : ℕ → UInt8) (header : Vector UInt8 12)
    (labels : List (List UInt8)) (rest : List UInt8) (addr : Vector UInt8 4) (port : Word16)
    (hne : labels ≠ []) (hlabels : ∀ label ∈ labels, HostLabel label)
    (htotal : (encode labels).length ≤ 255) {fuel : ℕ} (hfuel : nameRounds ≤ fuel) :
    ∃ reply, (getDnsRequest fuel ctx (query header labels rest addr port) (some fresh)).2 =
        some (some reply) ∧
      reply.bytes.take 2 = header.toList.take 2 ∧
      reply.bytes.drop 12 = encode labels ++ (replyQuestion ++ replyAnswer) := by
  rcases query_decoded header rest addr port hlabels htotal with ⟨hdecode, hself⟩
  rcases text_eq_dotted hne with ⟨front, hdotted, htext⟩
  have htrim : trim (dotted labels) ++ [0] = text labels ++ [] := by
    rw [trim, hdotted, getLast?_concat, if_pos rfl, dropLast_concat, htext,
      append_nil]
  rcases getDnsRequest_eq ctx fresh hself hne (fun l hl => (hlabels l hl).plain)
    (hdecode ▸ htrim) hfuel with ⟨reply, hreply, hbytes⟩
  refine ⟨reply, hreply, ?_, ?_⟩
  · rw [hbytes, ← query_txid header labels rest addr port]
    rfl
  · rw [hbytes]
    rfl

/-- A query for `pi-1.net`. -/
theorem query_echoed_host : ∃ reply, (getDnsRequest nameRounds (fun _ => 0xff)
      (query (Vector.replicate 12 7) [[0x70, 0x69, 0x2d, 0x31], [0x6e, 0x65, 0x74]] [0, 1, 0, 1]
        (Vector.replicate 4 0) ⟨0, 53⟩) (some fun _ => 0xff)).2 = some (some reply) ∧
    reply.bytes.take 2 = (Vector.replicate 12 (7 : UInt8)).toList.take 2 ∧
    reply.bytes.drop 12 = encode [[0x70, 0x69, 0x2d, 0x31], [0x6e, 0x65, 0x74]] ++
      (replyQuestion ++ replyAnswer) :=
  query_echoed _ _ _ _ _ _ _ (cons_ne_nil _ _) (by unfold HostLabel HostByte; decide +kernel)
    (by decide) (le_refl _)

end Echo

section Histories

/-- The datagram that `get_dns_request` sends, if any. -/
def sentBytes (fuel : ℕ) (ctx : ℕ → UInt8) (r : Request) (rp : Option (ℕ → UInt8)) :
    Option (Option (List UInt8)) := (getDnsRequest fuel ctx r rp).2.map (Option.map Reply.bytes)

/-- The text up to the first zero is that of labels without dots. -/
theorem exists_labels (name : List UInt8) : ∃ labels rest, labels ≠ [] ∧
    (∀ label ∈ labels, 0x2e ∉ label ∧ 0 ∉ label) ∧ name ++ [0] = text labels ++ rest := by
  by_cases hzero : 0 ∈ name
  · rcases eq_append_cons_of_mem hzero with ⟨front, rest, hsplit, hfront⟩
    rcases exists_text front hfront with ⟨labels, hne, htext, hplain⟩
    refine ⟨labels, rest ++ [0], hne, hplain, ?_⟩
    rw [hsplit, htext, append_assoc, append_assoc]
    rfl
  · rcases exists_text name hzero with ⟨labels, hne, htext, hplain⟩
    exact ⟨labels, [], hne, hplain, by rw [htext, append_nil]⟩

/-- A request whose name ends within it has one reply in every context. -/
theorem sentBytes_of_selfContained {r : Request} (hr : r.SelfContained) : ∃ bytes,
    ∀ ctx fresh fuel, nameRounds ≤ fuel → sentBytes fuel ctx r (some fresh) = some (some bytes) := by
  rcases exists_labels (trim (decode r.stream r.capacity)) with ⟨labels, rest, hne, hplain, htext⟩
  refine ⟨replyBytes r.txid labels, fun ctx fresh fuel hfuel => ?_⟩
  rcases getDnsRequest_eq ctx fresh hr hne hplain htext hfuel with ⟨reply, hreply, hbytes⟩
  rw [sentBytes, hreply, ← hbytes]
  rfl

/-- Whatever was received before and whatever the memory held, a request whose header is whole
and whose name ends within it has the same reply. -/
theorem reply_independent_of_history (ctx₁ ctx₂ : ℕ → UInt8) (history₁ history₂ : List Request)
    (r : Request) (rp₁ rp₂ : Option (ℕ → UInt8)) (halloc : rp₁.isSome = rp₂.isSome)
    (hr : r.SelfContained) : ∃ reply, ∀ fuel, nameRounds ≤ fuel →
      sentBytes fuel (after ctx₁ history₁) r rp₁ = some reply ∧
        sentBytes fuel (after ctx₂ history₂) r rp₂ = some reply := by
  rcases sentBytes_of_selfContained hr with ⟨bytes, hbytes⟩
  cases rp₁ with
  | none =>
    cases rp₂ with
    | none => exact ⟨none, fun fuel _ => ⟨rfl, rfl⟩⟩
    | some fresh => exact absurd halloc Bool.false_ne_true
  | some fresh₁ =>
    cases rp₂ with
    | none => exact absurd halloc.symm Bool.false_ne_true
    | some fresh₂ =>
      exact ⟨some bytes, fun fuel hfuel => ⟨hbytes _ _ fuel hfuel, hbytes _ _ fuel hfuel⟩⟩

/-- A query for a name of one letter. -/
def letterQuery (id letter : UInt8) : Request :=
  ⟨[0, id, 1, 0, 0, 1, 0, 0, 0, 0, 0, 0, 1, letter, 0, 0, 1, 0, 1], Vector.replicate 4 0, ⟨0, 53⟩⟩

/-- A query for `a` after another one and as the first, in memory with other contents. -/
theorem reply_independent_of_history_letter : ∃ reply, ∀ fuel, nameRounds ≤ fuel →
    sentBytes fuel (after (fun _ => 0) [letterQuery 1 0x62]) (letterQuery 2 0x61)
        (some fun _ => 0) = some reply ∧
      sentBytes fuel (after (fun _ => 0xff) []) (letterQuery 2 0x61) (some fun _ => 0xff) =
        some reply :=
  reply_independent_of_history (fun _ => 0) (fun _ => 0xff) [letterQuery 1 0x62] []
    (letterQuery 2 0x61) (some fun _ => 0) (some fun _ => 0xff) rfl (by decide +kernel)

/-- A datagram that is shorter than a header. -/
def shortDatagram : Request := ⟨[0], Vector.replicate 4 0, ⟨0, 53⟩⟩

/-- A short datagram is answered with the id and the name of the request before it. -/
theorem reply_depends_on_history : ¬∃ reply, ∀ fuel, nameRounds ≤ fuel →
    sentBytes fuel (after (fun _ => 0) [letterQuery 1 0x61]) shortDatagram (some fun _ => 0) =
        some reply ∧
      sentBytes fuel (after (fun _ => 0) [letterQuery 2 0x62]) shortDatagram (some fun _ => 0) =
        some reply := by
  rintro ⟨reply, h⟩
  rcases h nameRounds (le_refl _) with ⟨h₁, h₂⟩
  have hne : sentBytes nameRounds (after (fun _ => 0) [letterQuery 1 0x61]) shortDatagram
        (some fun _ => 0) ≠
      sentBytes nameRounds (after (fun _ => 0) [letterQuery 2 0x62]) shortDatagram
        (some fun _ => 0) := by
    decide +kernel
  exact hne (h₁.trans h₂.symm)

end Histories

end PineVoice.DnsServer
