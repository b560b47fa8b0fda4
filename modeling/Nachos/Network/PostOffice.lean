import Nachos.Network.Packet
import Nachos.Threads.SynchList

/-! # The post office

Each machine has a kernel, a network device with an inbox for one packet, a
`PostOffice` with its mail boxes, which are `SynchList`s, and a postal worker,
the thread that moves packets from the inbox to the boxes. Any number of threads
send and receive. A socket holds the packets that have arrived and have not been
polled yet.
-/

namespace Nachos.Network

open Function Transition Threads Bytes

/-- The statement of `Send`, `Receive` or `PostalDelivery` that a thread runs next, or is in. -/
inductive Place
  | idle
  /-- `Send`: `sendLock->Acquire()` has been called, `network->Send(pktHdr, buffer)` is next. The
  letter is what the caller passed to `Send`. -/
  | send (pktHdr : PacketHeader) (buffer : Buffer) (letter : Letter)
  /-- `Send`: `messageSent->P()` is next. -/
  | sent
  /-- `Send`: `messageSent->P()` has been called, `sendLock->Release()` is next. -/
  | sending
  /-- `PostalDelivery`: `messageAvailable->P()` is next. -/
  | deliver
  /-- `PostalDelivery`: `messageAvailable->P()` has been called, `network->Receive` is next. -/
  | arriving
  /-- `PostalDelivery`: `boxes[b].Put` is next. -/
  | put (b : ℕ) (mail : Mail)
  /-- In `Append` or `Remove` of the list of a box. -/
  | box (b : ℕ) (p : SynchList.Place Mail)

def Place.isIdle : Place → Bool
  | .idle => true
  | _ => false

def Place.inBox (b : ℕ) : Place → SynchList.Place Mail
  | .box b' p => if b' = b then p else .idle
  | _ => .idle

structure Machine where
  kernel : Kernel
  place : ThreadId → Place
  /-- The lists of the boxes, and the mails that were put on and taken off them so far. -/
  list : ℕ → List Mail
  appended : ℕ → List Mail
  removed : ℕ → List Mail
  inHdr : PacketHeader
  inbox : Buffer
  sendBusy : Bool
  /-- The number of `NetworkSendDone` interrupts that are scheduled. -/
  sends : ℕ
  /-- The packets at the socket, in the order of their arrival. -/
  socket : List Buffer
  /-- The messages in the packets that have arrived at the socket so far. -/
  arrived : List Letter

structure Outgoing where
  to_ : BitVec 32
  wire : Buffer
  letter : Letter

/-- What a thread or an interrupt does. The contents of a fresh buffer and the loss of a packet
are not determined by the code. -/
inductive Action
  /-- A step of the kernel outside the post office. -/
  | other (a : Threads.Action)
  /-- The current thread calls `Send`. -/
  | send (to_ : BitVec 32) (mailHdr : MailHeader) (data buf : Buffer)
  /-- The current thread calls `Receive`. -/
  | receive (b : ℤ)
  /-- The current thread runs its next statement. -/
  | advance (lost : Bool) (buf : Buffer)
  /-- The `NetworkReadPoll` interrupt. -/
  | poll
  /-- The `NetworkSendDone` interrupt. -/
  | sendDone

/-- The postal worker, the number of boxes and the ids of the objects. The lock and the condition
of box `b` have the id `b`. -/
structure Office where
  worker : ThreadId
  numBoxes : ℕ

namespace Office

variable (O : Office)

def sendLock : ℕ := O.numBoxes

def messageAvailable : ℕ := 0

def messageSent : ℕ := 1

def own : List Object :=
  (List.range (O.numBoxes + 1)).map .lock ++ (List.range O.numBoxes).map .condition ++
    [.semaphore messageAvailable, .semaphore messageSent]

/-- Where a thread goes on after a call of `Append` or `Remove`: only the worker calls `Append`,
in its loop. -/
def afterBox (t : ThreadId) : Place := if t = O.worker then .deliver else .idle

end Office

namespace Machine

variable (O : Office)

def box (b : ℕ) (m : Machine) : SynchList.State Mail :=
  ⟨m.kernel, m.list b, fun t => (m.place t).inBox b, m.appended b, m.removed b⟩

def setBox (b : ℕ) (m : Machine) (s : SynchList.State Mail) : Machine :=
  let t := m.kernel.currentThread
  { m with
    kernel := s.kernel
    place := update m.place t (if (s.place t).isIdle then O.afterBox t else .box b (s.place t))
    list := update m.list b s.list
    appended := update m.appended b s.appended
    removed := update m.removed b s.removed }

/-- The current thread calls a routine of the kernel and goes on at another place. -/
def call (a : Threads.Action) (p : Place) (m : Machine) : Option Machine :=
  (m.kernel.step a).map fun k =>
    { m with kernel := k, place := update m.place m.kernel.currentThread p }

/-- `PostOffice::Send`, up to `sendLock->Acquire()`. -/
def callSend (netAddr to_ : BitVec 32) (mailHdr : MailHeader) (data buf : Buffer)
    (m : Machine) : Option Machine :=
  if mailHdr.length.toNat ≤ MaxMailSize ∧ 0 ≤ mailHdr.to_.toInt ∧
      mailHdr.to_.toInt < O.numBoxes then
    m.call (.acquire O.sendLock)
      (.send (sentHeader netAddr to_ mailHdr) (enclose buf mailHdr data)
        ⟨netAddr, mailHdr, firstBytes mailHdr.length.toNat data⟩)
  else none

/-- `Network::Send`; the packet may be lost. -/
def networkSend (ident : BitVec 32) (hdr : PacketHeader) (buffer : Buffer) (letter : Letter)
    (lost : Bool) (buf : Buffer) (m : Machine) : Option (Machine × Option Outgoing) :=
  if m.sendBusy = false ∧ 0 < hdr.length.toNat ∧ hdr.length.toNat ≤ MaxPacketSize ∧
      hdr.from_ = ident then
    let m' := { m with sends := m.sends + 1, place := update m.place m.kernel.currentThread .sent }
    some (m', if lost then none else some ⟨hdr.to_, enclose buf hdr buffer, letter⟩)
  else none

/-- `Network::Receive`, and `PostalDelivery` up to `boxes[mailHdr.to].Put`. -/
def networkReceive (buf : Buffer) (m : Machine) : Option Machine :=
  let hdr := m.inHdr
  let packet := if hdr.length = 0 then buf else blit buf 0 hdr.length.toNat m.inbox
  let mailHdr := Header.ofBytes packet
  if 0 ≤ mailHdr.to_.toInt ∧ mailHdr.to_.toInt < O.numBoxes ∧
      mailHdr.length.toNat ≤ MaxMailSize then
    some { m with
      inHdr := { hdr with length := 0 }
      place := update m.place m.kernel.currentThread
        (.put mailHdr.to_.toInt.toNat (mailOf buf hdr packet)) }
  else none

def advance (ident : BitVec 32) (lost : Bool) (buf : Buffer) (m : Machine) :
    Option (Machine × Option Outgoing) :=
  match m.place m.kernel.currentThread with
  | .idle => none
  | .send hdr buffer letter => m.networkSend ident hdr buffer letter lost buf
  | .sent => (m.call (.p Office.messageSent) .sending).map (·, none)
  | .sending => (m.call (.release O.sendLock) .idle).map (·, none)
  | .deliver => (m.call (.p Office.messageAvailable) .arriving).map (·, none)
  | .arriving => (m.networkReceive O buf).map (·, none)
  | .put b mail => ((m.box b).call (.acquire b) (.append mail)).map (m.setBox O b ·, none)
  | .box b _ => ((m.box b).advance b b).map (m.setBox O b ·, none)

/-- `Network::CheckPktAvail`, which calls `IncomingPacket`. -/
def checkPktAvail (ident : BitVec 32) (m : Machine) : Option Machine :=
  if m.inHdr.length ≠ 0 then some m
  else
    match m.socket with
    | [] => some m
    | buffer :: rest =>
      let inHdr := Header.ofBytes buffer
      if inHdr.to_ = ident ∧ inHdr.length.toNat ≤ MaxPacketSize then
        (m.kernel.step (.interruptV Office.messageAvailable)).map fun k =>
          { m with
            kernel := k
            socket := rest
            inHdr := inHdr
            inbox := blit m.inbox 0 inHdr.length.toNat (payload buffer) }
      else none

/-- `Network::SendDone`, which calls `PacketSent`. -/
def sendDone (m : Machine) : Option Machine :=
  if 0 < m.sends then
    (m.kernel.step (.interruptV Office.messageSent)).map fun k =>
      { m with kernel := k, sends := m.sends - 1, sendBusy := false }
  else none

/-- A step of one machine, and the packet it puts on the network. -/
def step (ident : BitVec 32) (m : Machine) : Action → Option (Machine × Option Outgoing)
  | .other a =>
    if a.Avoids O.own ∧
        (a.isCode = true → (m.place m.kernel.currentThread).isIdle = true) then
      (m.kernel.step a).map fun k => ({ m with kernel := k }, none)
    else none
  | .send to_ mailHdr data buf =>
    if (m.place m.kernel.currentThread).isIdle then
      (m.callSend O ident to_ mailHdr data buf).map (·, none)
    else none
  | .receive b =>
    if (m.place m.kernel.currentThread).isIdle ∧ 0 ≤ b ∧ b < O.numBoxes then
      ((m.box b.toNat).call (.acquire b.toNat) .test).map (m.setBox O b.toNat ·, none)
    else none
  | .advance lost buf => if m.kernel.AtCall then m.advance O ident lost buf else none
  | .poll => (m.checkPktAvail ident).map (·, none)
  | .sendDone => m.sendDone.map (·, none)

def deliver (p : Outgoing) (m : Machine) : Machine :=
  { m with socket := m.socket ++ [p.wire], arrived := m.arrived ++ [p.letter] }

structure Initial (m : Machine) : Prop where
  kernel : Kernel.Initial m.kernel
  worker : O.worker ≠ m.kernel.currentThread
  value : m.kernel.value Office.messageAvailable = 0
  place : ∀ t, m.place t = O.afterBox t
  list : ∀ b, m.list b = []
  appended : ∀ b, m.appended b = []
  removed : ∀ b, m.removed b = []
  inHdr : m.inHdr.length = 0
  sendBusy : m.sendBusy = false
  socket : m.socket = []
  arrived : m.arrived = []

end Machine

/-- The machines by their network addresses. -/
abbrev Machines := BitVec 32 → Machine

/-- One machine takes a step; the packet that it sends goes to the socket of the machine that its
header names. -/
def Machines.step (O : Office) (ms : Machines) (a : BitVec 32 × Action) : Option Machines :=
  ((ms a.1).step O a.1 a.2).map fun r =>
    let ms' := update ms a.1 r.1
    match r.2 with
    | none => ms'
    | some p => update ms' p.to_ ((ms' p.to_).deliver p)

/-- Any number of machines, with any number of threads each. -/
def system (O : Office) : System Machines (BitVec 32 × Action) :=
  .ofStep (fun ms => ∀ a, (ms a).Initial O) (Machines.step O)

end Nachos.Network
