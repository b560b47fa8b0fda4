import Nachos.Library.Bytes
import Nachos.Library.Words

/-! # Packets

`PostOffice` puts a mail header in front of the data of a message, and `Network`
puts a packet header in front of that. Both headers are three words. What is
read back from a packet depends only on the bytes that the headers announce.
-/

namespace Nachos.Network

open Bytes Words

abbrev Buffer := ℕ → UInt8

structure Header where
  to_ : BitVec 32
  from_ : BitVec 32
  length : BitVec 32
  deriving DecidableEq

abbrev PacketHeader := Header

abbrev MailHeader := Header

def headerSize : ℕ := 12

def MaxWireSize : ℕ := 64

def MaxPacketSize : ℕ := MaxWireSize - headerSize

def MaxMailSize : ℕ := MaxPacketSize - headerSize

namespace Header

variable {h : Header} {f g : Buffer}

def bytes (h : Header) : Buffer := fun i =>
  if i < 4 then byte h.to_ i else if i < 8 then byte h.from_ (i - 4) else byte h.length (i - 8)

def ofBytes (f : Buffer) : Header :=
  ⟨word f, word fun i => f (4 + i), word fun i => f (8 + i)⟩

theorem ofBytes_congr (hf : ∀ i < headerSize, f i = g i) : ofBytes f = ofBytes g := by
  unfold headerSize at hf
  rw [ofBytes, ofBytes, word_congr fun i hi => hf i (by omega),
    word_congr (f := fun i => f (4 + i)) fun i hi => hf (4 + i) (by omega),
    word_congr (f := fun i => f (8 + i)) fun i hi => hf (8 + i) (by omega)]

theorem ofBytes_bytes : ofBytes h.bytes = h := by
  have hfrom : word (fun i => h.bytes (4 + i)) = h.from_ := by
    rw [← word_byte h.from_]
    refine word_congr fun i hi => ?_
    simp [bytes, show 4 + i < 8 by omega]
  have hlength : word (fun i => h.bytes (8 + i)) = h.length := by
    rw [← word_byte h.length]
    refine word_congr fun i hi => ?_
    simp [bytes, show ¬ 8 + i < 4 by omega]
  have hto : word h.bytes = h.to_ := by
    rw [← word_byte h.to_]
    refine word_congr fun i hi => ?_
    simp [bytes, hi]
  rw [ofBytes, hto, hfrom, hlength]

end Header

variable {buf data f g : Buffer} {hdr mailHdr : Header} {n : ℕ}

def enclose (buf : Buffer) (hdr : Header) (data : Buffer) : Buffer :=
  blit (blit buf 0 headerSize hdr.bytes) headerSize hdr.length.toNat data

def payload (f : Buffer) : Buffer := fun i => f (headerSize + i)

theorem ofBytes_enclose : Header.ofBytes (enclose buf hdr data) = hdr := by
  refine (Header.ofBytes_congr fun i hi => ?_).trans Header.ofBytes_bytes
  rw [enclose, blit_of_lt hi, blit_start hi]

theorem payload_enclose (hn : n < hdr.length.toNat) :
    payload (enclose buf hdr data) n = data n := by
  rw [payload, enclose, blit_add hn]

/-! ## Messages -/

structure Letter where
  from_ : BitVec 32
  mailHdr : MailHeader
  data : List UInt8
  deriving DecidableEq

def firstBytes (n : ℕ) (f : Buffer) : List UInt8 := (List.range n).map f

theorem firstBytes_congr (h : ∀ i < n, f i = g i) : firstBytes n f = firstBytes n g :=
  List.map_congr_left fun i hi => h i (List.mem_range.mp hi)

structure Mail where
  pktHdr : PacketHeader
  mailHdr : MailHeader
  data : Buffer

/-- What `MailBox::Get` copies out of a mail for the caller of `Receive`. -/
def Mail.letter (m : Mail) : Letter :=
  ⟨m.pktHdr.from_, m.mailHdr, firstBytes m.mailHdr.length.toNat m.data⟩

def packetLetter (pktHdr : PacketHeader) (packet : Buffer) : Letter :=
  ⟨pktHdr.from_, .ofBytes packet,
    firstBytes (Header.ofBytes packet).length.toNat (payload packet)⟩

structure IsMail (pktHdr : PacketHeader) (packet : Buffer) : Prop where
  length : pktHdr.length.toNat = (Header.ofBytes packet).length.toNat + headerSize
  le : (Header.ofBytes packet).length.toNat ≤ MaxMailSize

theorem IsMail.congr (h : IsMail hdr f) (hf : ∀ i < hdr.length.toNat, f i = g i) :
    IsMail hdr g ∧ packetLetter hdr g = packetLetter hdr f := by
  have hlen := h.length
  have ho : Header.ofBytes g = Header.ofBytes f :=
    Header.ofBytes_congr fun i hi => (hf i (by omega)).symm
  refine ⟨⟨by rw [ho, h.length], by rw [ho]; exact h.le⟩, ?_⟩
  rw [packetLetter, packetLetter, ho]
  refine congrArg _ (firstBytes_congr fun i hi => (hf (headerSize + i) ?_).symm)
  omega

/-- The mail that `PostalDelivery` makes of a packet. -/
def mailOf (buf : Buffer) (pktHdr : PacketHeader) (packet : Buffer) : Mail :=
  ⟨pktHdr, .ofBytes packet, blit buf 0 (Header.ofBytes packet).length.toNat (payload packet)⟩

theorem letter_mailOf : (mailOf buf hdr f).letter = packetLetter hdr f := by
  refine congrArg (Letter.mk _ _) (firstBytes_congr fun i hi => ?_)
  exact blit_start hi

/-- The packet header that `PostOffice::Send` fills in. -/
def sentHeader (netAddr to_ : BitVec 32) (mailHdr : MailHeader) : PacketHeader :=
  ⟨to_, netAddr, mailHdr.length + BitVec.ofNat 32 headerSize⟩

theorem isMail_sent {netAddr to_ : BitVec 32} (h : mailHdr.length.toNat ≤ MaxMailSize) :
    IsMail (sentHeader netAddr to_ mailHdr) (enclose buf mailHdr data) ∧
    packetLetter (sentHeader netAddr to_ mailHdr) (enclose buf mailHdr data) =
      ⟨netAddr, mailHdr, firstBytes mailHdr.length.toNat data⟩ := by
  have hmax : MaxMailSize = 40 := rfl
  refine ⟨⟨?_, by rwa [ofBytes_enclose]⟩, ?_⟩
  · rw [ofBytes_enclose, sentHeader, BitVec.toNat_add, BitVec.toNat_ofNat]
    unfold headerSize
    omega
  · rw [packetLetter, ofBytes_enclose]
    exact congrArg _ (firstBytes_congr fun i hi => payload_enclose hi)

end Nachos.Network
