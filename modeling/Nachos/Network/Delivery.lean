import Nachos.Network.PostOffice

/-! # Delivery in order

Between the socket of a machine and the list of a box a message is in one of
three places: in a packet at the socket, in the inbox of the device, or in the
hands of the postal worker. The semaphore `messageAvailable` counts the packet
in the inbox until the worker has passed it, so the worker finds each packet
once.
-/

namespace Nachos.Network

open Function Transition Threads Office

variable {O : Office} {ident : BitVec 32} {m m' : Machine} {k k' : Kernel} {t : ThreadId}
  {q : Place} {a : Threads.Action} {b : ℕ} {s : SynchList.State Mail} {buf : Buffer}
  {place : ThreadId → Place} {full : Prop}

/-! ## The threads -/

/-- What a thread may hold at a place: only the worker moves mail to the boxes, to the box that the
header of the mail names, and what `Send` gives to the network is the message of its caller. -/
def Place.Valid (O : Office) (t : ThreadId) : Place → Prop
  | .idle | .sent | .sending => True
  | .send hdr buffer letter => IsMail hdr buffer ∧ packetLetter hdr buffer = letter
  | .deliver | .arriving => t = O.worker
  | .put b mail | .box b (.append mail) =>
    t = O.worker ∧ b < O.numBoxes ∧ mail.mailHdr.to_.toInt = b
  | .box b _ => b < O.numBoxes

theorem Place.valid_afterBox : (O.afterBox t).Valid O t := by
  unfold afterBox
  split
  case isTrue h => exact h
  case isFalse => trivial

theorem Place.Valid.lt {p : SynchList.Place Mail} (h : (Place.box b p).Valid O t) :
    b < O.numBoxes := by
  cases p with
  | append mail => exact h.2.1
  | _ => exact h

theorem valid_update (h : ∀ t, (place t).Valid O t) (hq : q.Valid O t) :
    ∀ u, (update place t q u).Valid O u :=
  (forall_update_iff place fun u p => p.Valid O u).mpr ⟨hq, fun u _ => h u⟩

/-! ## The boxes -/

def Boxes (O : Office) (m : Machine) : Prop :=
  ∀ b < O.numBoxes, SynchList.Inv b b (m.box b)

theorem Boxes.congr (h : Boxes O m) (he : ∀ b, m'.box b = m.box b) : Boxes O m' :=
  fun b hb => (he b).symm ▸ h b hb

theorem Boxes.other (h : Boxes O m)
    (ha : ∀ b < O.numBoxes, a.Avoids [.lock b, .condition b])
    (hi : a.isCode = true → ∀ b, (m.place m.kernel.currentThread).inBox b = .idle)
    (hs : m.kernel.step a = some k) : Boxes O { m with kernel := k } :=
  fun b hb => (h b hb).other (ha b hb) (fun hc => hi hc b) hs

theorem Boxes.goTo (h : Boxes O m) (hp : ∀ b, (m.place t).inBox b = .idle)
    (hq : ∀ b, q.inBox b = .idle) : Boxes O { m with place := update m.place t q } := by
  refine h.congr fun b => ?_
  simp only [Machine.box, SynchList.State.mk.injEq, true_and, and_true]
  funext u
  by_cases hu : u = t
  · subst hu
    simp [hp, hq]
  · rw [update_of_ne hu]

theorem box_setBox (hl : SynchList.State.Local b b (m.box b) s) : (m.setBox O b s).box b = s := by
  have hp : (fun u => ((m.setBox O b s).place u).inBox b) = s.place := by
    funext u
    by_cases hu : u = m.kernel.currentThread
    · subst hu
      by_cases hi : s.place m.kernel.currentThread = .idle
      · simp only [Machine.setBox, update_self, hi, SynchList.Place.isIdle, ↓reduceIte]
        unfold afterBox
        split <;> rfl
      · simp [Machine.setBox, hi, Place.inBox]
    · simp only [Machine.setBox, update_of_ne hu]
      exact (hl.place u hu).symm
  rw [Machine.box, hp]
  simp [Machine.setBox]

theorem box_setBox_of_ne {b' : ℕ} (hb : b' ≠ b)
    (hp : (m.place m.kernel.currentThread).inBox b' = .idle) :
    (m.setBox O b s).box b' = { m.box b' with kernel := s.kernel } := by
  simp only [Machine.setBox, Machine.box, update_of_ne hb, SynchList.State.mk.injEq, true_and,
    and_true]
  funext u
  by_cases hu : u = m.kernel.currentThread
  · subst hu
    rw [update_self, hp]
    split
    · unfold afterBox
      split <;> rfl
    · simp [Place.inBox, hb.symm]
  · rw [update_of_ne hu]

theorem Boxes.setBox (h : Boxes O m) (hl : SynchList.State.Local b b (m.box b) s)
    (hi : SynchList.Inv b b s)
    (hp : ∀ b' ≠ b, (m.place m.kernel.currentThread).inBox b' = .idle) :
    Boxes O (m.setBox O b s) := by
  intro b' hb'
  by_cases he : b' = b
  · subst he
    rwa [box_setBox hl]
  · rw [box_setBox_of_ne he (hp b' he)]
    rcases hl.kernel with hk | ⟨a, ha, hk⟩
    · rw [hk]
      exact h b' hb'
    · refine (h b' hb').other (fun o ho => ?_) (fun _ => hp b' he) hk
      have := ha o ho
      simp only [List.mem_cons, List.not_mem_nil, or_false] at this
      rcases this with rfl | rfl <;> simp [Ne.symm he]

/-! ## The semaphore -/

/-- The worker is past `messageAvailable->P()` and has not called `network->Receive` yet. -/
def Past (O : Office) (k : Kernel) (place : ThreadId → Place) : Prop :=
  place O.worker = .arriving ∧ k.pc O.worker ≠ .semaphoreP messageAvailable

structure Arrivals (O : Office) (k : Kernel) (place : ThreadId → Place) (full : Prop) : Prop where
  waits : ∀ t, k.pc t = .semaphoreP messageAvailable → place t = .arriving
  token : (¬ full ∧ ¬ Past O k place ∧ k.value messageAvailable = 0) ∨
    (full ∧ ¬ Past O k place ∧ k.value messageAvailable = 1) ∨
    (full ∧ Past O k place ∧ k.value messageAvailable = 0)

namespace Arrivals

theorem congr (h : Arrivals O k place full)
    (hv : k'.value messageAvailable = k.value messageAvailable)
    (hp : ∀ t, k'.pc t = .semaphoreP messageAvailable ↔ k.pc t = .semaphoreP messageAvailable) :
    Arrivals O k' place full := by
  refine ⟨fun t ht => h.waits t ((hp t).mp ht), ?_⟩
  have hpast : Past O k' place ↔ Past O k place := and_congr_right' (hp O.worker).not
  simpa only [hv, hpast] using h.token

theorem passed (h : Arrivals O k place full) (hw : place t = .arriving → t = O.worker)
    (hp : k.pc t = .semaphoreP messageAvailable) (hv : k.value messageAvailable ≠ 0)
    (ho : k'.observed = (k.observed.add messageAvailable (-1)).goTo t .outside) :
    Arrivals O k' place full := by
  have hplace := h.waits t hp
  obtain rfl := hw hplace
  have hpc : k'.pc = update k.pc O.worker .outside := congrArg Observed.pc ho
  have hval : k'.value messageAvailable = k.value messageAvailable + -1 := by
    have := congrFun (congrArg Observed.value ho) messageAvailable
    simpa [Observed.goTo, Observed.add, Kernel.observed] using this
  refine ⟨fun u hu => ?_, ?_⟩
  · by_cases he : u = O.worker
    · exact he ▸ hplace
    · exact h.waits u (by simpa [hpc, update_of_ne he] using hu)
  · rcases h.token with ⟨-, -, hz⟩ | ⟨hf, -, hone⟩ | ⟨-, -, hz⟩
    · exact absurd hz hv
    · exact .inr (.inr ⟨hf, ⟨hplace, by simp [hpc]⟩, by rw [hval, hone]; rfl⟩)
    · exact absurd hz hv

theorem other (h : Arrivals O k place full) (hw : ∀ t, place t = .arriving → t = O.worker)
    (ha : a.Avoids [.semaphore messageAvailable]) (hs : k.step a = some k') :
    Arrivals O k' place full := by
  rcases value_cases ha hs with ⟨hv, hp⟩ | ⟨u, hp, hv, ho⟩
  · exact h.congr hv hp
  · exact h.passed (hw u) hp hv ho

theorem goTo (h : Arrivals O k place full) (hp : place t ≠ .arriving) (hq : q ≠ .arriving) :
    Arrivals O k (update place t q) full := by
  have he : ∀ u, update place t q u = .arriving ↔ place u = .arriving := by
    intro u
    by_cases hu : u = t
    · subst hu
      simp [hp, hq]
    · rw [update_of_ne hu]
  refine ⟨fun u hu => (he u).mpr (h.waits u hu), ?_⟩
  have hpast : Past O k (update place t q) ↔ Past O k place := and_congr_left' (he O.worker)
  simpa only [hpast] using h.token

theorem callP (h : Arrivals O k place full) (hw : k.currentThread = O.worker)
    (hp : place k.currentThread = .deliver) :
    Arrivals O (Kernel.semaphoreP messageAvailable k)
      (update place k.currentThread .arriving) full := by
  rw [hw] at hp ⊢
  have hnot : ¬ Past O k place := fun hpast => by simp [hp, Past] at hpast
  rcases observed_semaphoreP (s := messageAvailable) (k := k) with ⟨hz, ho⟩ | ⟨hz, ho⟩
  all_goals
    rw [hw] at ho
    have hpc := congrArg Observed.pc ho
    have hval := congrFun (congrArg Observed.value ho) messageAvailable
    simp only [Kernel.observed, Observed.goTo, Observed.add, update_self] at hpc hval
    refine ⟨fun u hu => ?_, ?_⟩
    · by_cases he : u = O.worker
      · simp [he]
      · rw [update_of_ne he]
        exact h.waits u (by simpa [hpc, update_of_ne he] using hu)
  · have hnot' : ¬ Past O (Kernel.semaphoreP messageAvailable k)
        (update place O.worker .arriving) := fun hpast => hpast.2 (by simp [hpc])
    rcases h.token with ⟨hf, -, -⟩ | ⟨-, -, hone⟩ | ⟨-, hpast, -⟩
    · exact .inl ⟨hf, hnot', hval.trans hz⟩
    · rw [hone] at hz
      cases hz
    · exact absurd hpast hnot
  · rcases h.token with ⟨-, -, hz'⟩ | ⟨hf, -, hone⟩ | ⟨-, hpast, -⟩
    · exact absurd hz' hz
    · exact .inr (.inr ⟨hf, ⟨by simp, by simp [hpc]⟩, by rw [hval, hone]; rfl⟩)
    · exact absurd hpast hnot

theorem full_of_past (h : Arrivals O k place full) (hpast : Past O k place) :
    full ∧ k.value messageAvailable = 0 := by
  rcases h.token with ⟨-, hn, -⟩ | ⟨-, hn, -⟩ | ⟨hf, -, hv⟩
  · exact absurd hpast hn
  · exact absurd hpast hn
  · exact ⟨hf, hv⟩

theorem receive (h : Arrivals O k place full) (hpast : Past O k place) (hq : q ≠ .arriving)
    {full' : Prop} (hf : ¬ full') : Arrivals O k (update place O.worker q) full' := by
  have hv := (h.full_of_past hpast).2
  refine ⟨fun u hu => ?_, .inl ⟨hf, fun h' => hq (by simpa using h'.1), hv⟩⟩
  have hne : u ≠ O.worker := by
    rintro rfl
    exact hpast.2 hu
  rw [update_of_ne hne]
  exact h.waits u hu

theorem v (h : Arrivals O k place full) (he : ¬ full) {full' : Prop} (hf : full') :
    Arrivals O (Kernel.semaphoreV messageAvailable k) place full' := by
  have ho := observed_semaphoreV (s := messageAvailable) (k := k)
  have hpc : (Kernel.semaphoreV messageAvailable k).pc = k.pc := congrArg Observed.pc ho
  have hval := congrFun (congrArg Observed.value ho) messageAvailable
  simp only [Kernel.observed, Observed.add, update_self] at hval
  refine ⟨fun t ht => h.waits t (hpc ▸ ht), .inr (.inl ⟨hf, ?_, ?_⟩)⟩
  · rcases h.token with ⟨-, hn, -⟩ | ⟨hf', -, -⟩ | ⟨hf', -, -⟩
    · rwa [Past, hpc]
    · exact absurd hf' he
    · exact absurd hf' he
  · rcases h.token with ⟨-, -, hz⟩ | ⟨hf', -, -⟩ | ⟨hf', -, -⟩
    · rw [hval, hz, zero_add]
    · exact absurd hf' he
    · exact absurd hf' he

end Arrivals

/-! ## The messages on their way -/

def Letter.isFor (b : ℕ) (x : Letter) : Bool := x.mailHdr.to_.toInt = b

def Place.inFlight : Place → List Letter
  | .put _ mail | .box _ (.append mail) => [mail.letter]
  | _ => []

def wireLetter (w : Buffer) : Letter := packetLetter (.ofBytes w) (payload w)

def Machine.pipeline (O : Office) (m : Machine) : List Letter :=
  (m.place O.worker).inFlight ++
    ((if m.inHdr.length = 0 then [] else [packetLetter m.inHdr m.inbox]) ++
      m.socket.map wireLetter)

theorem inFlight_update (h : q.inFlight = (place t).inFlight) :
    (update place t q O.worker).inFlight = (place O.worker).inFlight := by
  by_cases ht : O.worker = t
  · subst ht
    rw [update_self, h]
  · rw [update_of_ne ht]

structure Contents (O : Office) (ident : BitVec 32) (m : Machine) : Prop where
  socket : ∀ w ∈ m.socket, (Header.ofBytes w).to_ = ident ∧ IsMail (.ofBytes w) (payload w)
  inbox : m.inHdr.length ≠ 0 → IsMail m.inHdr m.inbox
  fifo : ∀ b, m.arrived.filter (·.isFor b) =
    (m.appended b).map Mail.letter ++ (m.pipeline O).filter (·.isFor b)

namespace Contents

theorem congr (h : Contents O ident m) (hp : (m'.place O.worker).inFlight =
      (m.place O.worker).inFlight) (ha : m'.appended = m.appended) (hh : m'.inHdr = m.inHdr)
    (hi : m'.inbox = m.inbox) (hs : m'.socket = m.socket) (hr : m'.arrived = m.arrived) :
    Contents O ident m' := by
  refine ⟨hs ▸ h.socket, hh ▸ hi ▸ h.inbox, fun b => ?_⟩
  simpa only [Machine.pipeline, hp, ha, hh, hi, hs, hr] using h.fifo b

theorem append {mail : Mail} (h : Contents O ident m)
    (hm : (m.place O.worker).inFlight = [mail.letter]) (hb : mail.mailHdr.to_.toInt = b)
    (hp : (m'.place O.worker).inFlight = [])
    (ha : m'.appended = update m.appended b (m.appended b ++ [mail]))
    (hh : m'.inHdr = m.inHdr) (hi : m'.inbox = m.inbox) (hs : m'.socket = m.socket)
    (hr : m'.arrived = m.arrived) : Contents O ident m' := by
  refine ⟨hs ▸ h.socket, hh ▸ hi ▸ h.inbox, fun b' => ?_⟩
  have hf := h.fifo b'
  simp only [Machine.pipeline, hm, List.singleton_append, List.filter_cons] at hf
  simp only [Machine.pipeline, hp, ha, hh, hi, hs, hr, List.nil_append]
  by_cases he : b' = b
  · subst he
    have hfor : mail.letter.isFor b' = true := by simp [Letter.isFor, Mail.letter, hb]
    rw [hf, if_pos hfor, update_self]
    simp
  · have hfor : mail.letter.isFor b' = false := by
      simp only [Letter.isFor, Mail.letter, hb, decide_eq_false_iff_not]
      omega
    rw [hf, hfor, update_of_ne he]
    simp

theorem receive (h : Contents O ident m) (hp : (m.place O.worker).inFlight = [])
    (hq : q.inFlight = [packetLetter m.inHdr m.inbox]) (hf : m.inHdr.length ≠ 0) :
    Contents O ident { m with
      inHdr := { m.inHdr with length := 0 }, place := update m.place O.worker q } := by
  refine ⟨h.socket, fun hn => absurd rfl hn, fun b => ?_⟩
  have hb := h.fifo b
  rw [Machine.pipeline, hp, if_neg hf] at hb
  simpa only [Machine.pipeline, update_self, hq, ↓reduceIte, List.nil_append] using hb

theorem poll {w : Buffer} {rest : List Buffer} {inbox : Buffer} (h : Contents O ident m)
    (he : m.inHdr.length = 0) (hs : m.socket = w :: rest)
    (hi : ∀ i < (Header.ofBytes w).length.toNat, payload w i = inbox i) :
    (Header.ofBytes w).length ≠ 0 ∧ Contents O ident { m with
      kernel := k, socket := rest, inHdr := .ofBytes w, inbox := inbox } := by
  have hw := (h.socket w (by simp [hs])).2
  obtain ⟨hm, hl⟩ := hw.congr hi
  have hne : (Header.ofBytes w).length ≠ 0 := by
    intro h0
    have := hw.length
    simp [h0, headerSize] at this
  refine ⟨hne, fun v hv => h.socket v (by simp [hs, hv]), fun _ => hm, fun b => ?_⟩
  have hb := h.fifo b
  rw [Machine.pipeline, if_pos he, hs] at hb
  rw [Machine.pipeline, if_neg hne, hl]
  exact hb

end Contents

/-! ## One machine -/

structure Inv (O : Office) (ident : BitVec 32) (m : Machine) : Prop where
  reach : Reachable Kernel.system m.kernel
  valid : ∀ t, (m.place t).Valid O t
  boxes : Boxes O m
  arrivals : Arrivals O m.kernel m.place (m.inHdr.length ≠ 0)
  contents : Contents O ident m

def Place.inSend : Place → Bool
  | .idle | .send .. | .sent | .sending => true
  | _ => false

theorem Place.inSend.spec (h : q.inSend = true) :
    (∀ b, q.inBox b = .idle) ∧ q ≠ .arriving ∧ q.inFlight = [] := by
  cases q <;> simp_all [Place.inSend, Place.inBox, Place.inFlight]

/-- The action names no object of a box and not `messageAvailable`. -/
def Aside (O : Office) (a : Threads.Action) : Prop :=
  (∀ b < O.numBoxes, a.Avoids [.lock b, .condition b]) ∧ a.Avoids [.semaphore messageAvailable]

theorem Aside.of_avoids (h : a.Avoids O.own) : Aside O a := by
  refine ⟨fun b hb => h.mono ?_, h.mono ?_⟩
  · simp only [own, List.mem_cons, List.not_mem_nil, or_false, List.mem_append, List.mem_map,
      List.mem_range]
    rintro o (rfl | rfl)
    · exact .inl (.inl ⟨b, by omega, rfl⟩)
    · exact .inl (.inr ⟨b, hb, rfl⟩)
  · simp [own]

theorem Aside.of_uses (h : a.uses = [.lock O.sendLock]) : Aside O a := by
  unfold Aside Action.Avoids
  rw [h]
  refine ⟨fun b hb => ?_, by simp⟩
  simp only [sendLock, List.mem_cons, List.not_mem_nil, or_false, forall_eq, Object.lock.injEq,
    reduceCtorEq]
  omega

theorem Aside.acquire_sendLock : Aside O (.acquire O.sendLock) := .of_uses rfl

theorem Aside.release_sendLock : Aside O (.release O.sendLock) := .of_uses rfl

theorem Aside.p_messageSent : Aside O (.p messageSent) :=
  ⟨by simp [Action.Avoids, Action.uses],
    by simp [Action.Avoids, Action.uses, messageSent, messageAvailable]⟩

/-- The packet carries the message, and its header the machine it is for. -/
structure Outgoing.Valid (p : Outgoing) : Prop where
  to_ : (Header.ofBytes p.wire).to_ = p.to_
  isMail : IsMail (.ofBytes p.wire) (payload p.wire)
  letter : wireLetter p.wire = p.letter

theorem Outgoing.valid_enclose {hdr : PacketHeader} {buffer : Buffer} {letter : Letter}
    (h : IsMail hdr buffer ∧ packetLetter hdr buffer = letter) :
    Outgoing.Valid ⟨hdr.to_, enclose buf hdr buffer, letter⟩ := by
  obtain ⟨hm, hl⟩ := h.1.congr (g := payload (enclose buf hdr buffer))
    fun i hi => (payload_enclose hi).symm
  refine ⟨by rw [ofBytes_enclose], by rwa [ofBytes_enclose], ?_⟩
  rw [wireLetter, ofBytes_enclose, hl, h.2]

namespace Inv

theorem worker_of_arriving (h : Inv O ident m) (ht : m.place t = .arriving) : t = O.worker := by
  have := h.valid t
  rwa [ht] at this

theorem other (h : Inv O ident m) (ha : Aside O a)
    (hi : a.isCode = true → ∀ b, (m.place m.kernel.currentThread).inBox b = .idle)
    (hs : m.kernel.step a = some k) : Inv O ident { m with kernel := k } where
  reach := h.reach.step hs
  valid := h.valid
  boxes := h.boxes.other ha.1 hi hs
  arrivals := h.arrivals.other (fun _ => h.worker_of_arriving) ha.2 hs
  contents := h.contents.congr rfl rfl rfl rfl rfl rfl

theorem goTo (h : Inv O ident m) (hp : (m.place t).inSend = true) (hq : q.inSend = true)
    (hv : q.Valid O t) : Inv O ident { m with place := update m.place t q } where
  reach := h.reach
  valid := valid_update h.valid hv
  boxes := h.boxes.goTo (Place.inSend.spec hp).1 (Place.inSend.spec hq).1
  arrivals := h.arrivals.goTo (Place.inSend.spec hp).2.1 (Place.inSend.spec hq).2.1
  contents := h.contents.congr
    (inFlight_update (by rw [(Place.inSend.spec hp).2.2, (Place.inSend.spec hq).2.2]))
    rfl rfl rfl rfl rfl

theorem call (h : Inv O ident m) (ha : Aside O a)
    (hp : (m.place m.kernel.currentThread).inSend = true) (hq : q.inSend = true)
    (hv : q.Valid O m.kernel.currentThread) (hs : m.call a q = some m') : Inv O ident m' := by
  obtain ⟨k, hk, rfl⟩ := Option.map_eq_some_iff.mp hs
  exact (h.other ha (fun _ => (Place.inSend.spec hp).1) hk).goTo hp hq hv

theorem callSend {to_ : BitVec 32} {mailHdr : MailHeader} {data : Buffer} (h : Inv O ident m)
    (hp : (m.place m.kernel.currentThread).isIdle = true)
    (hs : m.callSend O ident to_ mailHdr data buf = some m') : Inv O ident m' := by
  have hsend : (m.place m.kernel.currentThread).inSend = true := by
    cases hq : m.place m.kernel.currentThread <;> simp_all [Place.isIdle, Place.inSend]
  simp only [Machine.callSend, Option.ite_none_right_eq_some] at hs
  obtain ⟨⟨hl, -, -⟩, hs⟩ := hs
  exact h.call Aside.acquire_sendLock hsend rfl (by exact isMail_sent hl) hs

theorem networkSend {hdr : PacketHeader} {buffer : Buffer} {letter : Letter} {lost : Bool}
    {out : Option Outgoing} (h : Inv O ident m)
    (hp : m.place m.kernel.currentThread = .send hdr buffer letter)
    (hs : m.networkSend ident hdr buffer letter lost buf = some (m', out)) :
    Inv O ident m' ∧ ∀ p ∈ out, p.Valid := by
  simp only [Machine.networkSend, Option.ite_none_right_eq_some, Option.some.injEq,
    Prod.mk.injEq] at hs
  obtain ⟨-, rfl, rfl⟩ := hs
  have hg := h.goTo (t := m.kernel.currentThread) (q := .sent) (by rw [hp]; rfl) rfl trivial
  refine ⟨⟨hg.reach, hg.valid, hg.boxes.congr fun _ => rfl, hg.arrivals,
    hg.contents.congr rfl rfl rfl rfl rfl rfl⟩, fun p hm => ?_⟩
  cases lost with
  | true => cases hm
  | false =>
    obtain rfl := Option.some.inj hm
    have hv := h.valid m.kernel.currentThread
    rw [hp] at hv
    exact Outgoing.valid_enclose hv

theorem networkReceive (h : Inv O ident m) (ha : m.kernel.AtCall)
    (hp : m.place m.kernel.currentThread = .arriving)
    (hs : m.networkReceive O buf = some m') : Inv O ident m' := by
  have hw := h.worker_of_arriving hp
  have hpast : Past O m.kernel m.place := by
    refine ⟨hw ▸ hp, ?_⟩
    rw [← hw, ha.2]
    simp
  have hf := (h.arrivals.full_of_past hpast).1
  simp only [Machine.networkReceive, if_neg hf, Option.ite_none_right_eq_some,
    Option.some.injEq] at hs
  obtain ⟨⟨h0, hn, -⟩, rfl⟩ := hs
  have hl := ((h.contents.inbox hf).congr (g := Bytes.blit buf 0 m.inHdr.length.toNat m.inbox)
    fun i hi => (Bytes.blit_start hi).symm).2
  rw [hw] at hp ⊢
  refine ⟨h.reach, valid_update h.valid ⟨rfl, by omega, ?_⟩, ?_, ?_, ?_⟩
  · exact (Int.toNat_of_nonneg h0).symm
  · exact (h.boxes.goTo (t := O.worker) (by simp [hp, Place.inBox])
      (by simp [Place.inBox])).congr fun _ => rfl
  · exact h.arrivals.receive hpast (by simp) (by simp)
  · exact h.contents.receive (by simp [hp, Place.inFlight]) (by
      rw [Place.inFlight, letter_mailOf, hl]) hf

theorem checkPktAvail (h : Inv O ident m) (hs : m.checkPktAvail ident = some m') :
    Inv O ident m' := by
  unfold Machine.checkPktAvail at hs
  split at hs
  case isTrue => exact Option.some.inj hs ▸ h
  case isFalse he =>
    split at hs
    case h_1 => exact Option.some.inj hs ▸ h
    case h_2 w rest hw =>
      simp only [Option.ite_none_right_eq_some] at hs
      obtain ⟨-, hs⟩ := hs
      obtain ⟨k, hk, rfl⟩ := Option.map_eq_some_iff.mp hs
      have hb := h.boxes.other (a := .interruptV messageAvailable)
        (by simp [Action.Avoids, Action.uses]) (by simp [Action.isCode]) hk
      obtain ⟨hne, hc⟩ := h.contents.poll (k := k) (not_not.mp he) hw
        fun i hi => (Bytes.blit_start hi).symm
      refine ⟨h.reach.step hk, h.valid, hb.congr fun _ => rfl, ?_, hc⟩
      simp only [Kernel.step, Option.some.injEq] at hk
      subst hk
      exact h.arrivals.v he hne

theorem sendDone (h : Inv O ident m) (hs : m.sendDone = some m') : Inv O ident m' := by
  simp only [Machine.sendDone, Option.ite_none_right_eq_some] at hs
  obtain ⟨-, hs⟩ := hs
  obtain ⟨k, hk, rfl⟩ := Option.map_eq_some_iff.mp hs
  have ho := h.other (a := .interruptV messageSent) ⟨by simp [Action.Avoids, Action.uses],
    by simp [Action.Avoids, Action.uses, messageSent, messageAvailable]⟩
    (by simp [Action.isCode]) hk
  exact ⟨ho.reach, ho.valid, ho.boxes.congr fun _ => rfl, ho.arrivals,
    ho.contents.congr rfl rfl rfl rfl rfl rfl⟩

theorem setBox (h : Inv O ident m) (hl : SynchList.State.Local b b (m.box b) s)
    (hi : SynchList.Inv b b s)
    (hp : ∀ b' ≠ b, (m.place m.kernel.currentThread).inBox b' = .idle)
    (hn : m.place m.kernel.currentThread ≠ .arriving)
    (hv : (Place.box b (s.place m.kernel.currentThread)).Valid O m.kernel.currentThread)
    (hc : Contents O ident (m.setBox O b s)) : Inv O ident (m.setBox O b s) := by
  have hq : ∀ {P : Place → Prop}, P (O.afterBox m.kernel.currentThread) →
      P (.box b (s.place m.kernel.currentThread)) →
      P (if (s.place m.kernel.currentThread).isIdle then O.afterBox m.kernel.currentThread
        else .box b (s.place m.kernel.currentThread)) := by
    intro P h₁ h₂
    split
    · exact h₁
    · exact h₂
  refine ⟨hi.reach, valid_update h.valid (hq (P := fun q => q.Valid O _) Place.valid_afterBox hv),
    h.boxes.setBox hl hi hp, ?_, hc⟩
  have ha : Arrivals O s.kernel m.place (m.inHdr.length ≠ 0) := by
    rcases hl.kernel with hk | ⟨a, ha, hk⟩
    · exact hk ▸ h.arrivals
    · refine h.arrivals.other (fun _ => h.worker_of_arriving) (fun o ho => ?_) hk
      have := ha o ho
      simp only [List.mem_cons, List.not_mem_nil, or_false] at this
      rcases this with rfl | rfl <;> simp
  refine ha.goTo hn (hq (P := (· ≠ .arriving)) ?_ (by simp))
  unfold afterBox
  split <;> simp

theorem enterBox {p : SynchList.Place Mail} (h : Inv O ident m) (hb : b < O.numBoxes)
    (hi : ∀ b', (m.place m.kernel.currentThread).inBox b' = .idle)
    (hn : m.place m.kernel.currentThread ≠ .arriving)
    (hp : p = .test ∨ ∃ mail, p = .append mail)
    (hv : (Place.box b p).Valid O m.kernel.currentThread)
    (hf : (Place.box b p).inFlight = (m.place m.kernel.currentThread).inFlight)
    (hs : (m.box b).call (.acquire b) p = some s) : Inv O ident (m.setBox O b s) := by
  obtain ⟨hpl, hap⟩ := SynchList.State.place_call hs
  change s.place m.kernel.currentThread = p at hpl
  have hne : (s.place m.kernel.currentThread).isIdle = false := by
    rcases hp with rfl | ⟨mail, rfl⟩ <;> rw [hpl] <;> rfl
  refine h.setBox (SynchList.State.local_call (by simp [Action.uses]) hs)
    ((h.boxes b hb).enter (hi b) hp hs) (fun b' _ => hi b') hn (hpl.symm ▸ hv)
    (h.contents.congr ?_ ?_ rfl rfl rfl rfl)
  · refine inFlight_update ?_
    rw [hne, hpl]
    exact hf
  · simp [Machine.setBox, hap, Machine.box]

theorem advanceBox {p : SynchList.Place Mail} (h : Inv O ident m) (ha : m.kernel.AtCall)
    (hp : m.place m.kernel.currentThread = .box b p)
    (hs : (m.box b).advance b b = some s) : Inv O ident (m.setBox O b s) := by
  have hv := h.valid m.kernel.currentThread
  rw [hp] at hv
  have hpb : (m.box b).place (m.box b).kernel.currentThread = p := by
    simp [Machine.box, hp, Place.inBox]
  have hflight : ∀ q : SynchList.Place Mail, (∀ mail, q ≠ .append mail) →
      (if q.isIdle then O.afterBox m.kernel.currentThread else Place.box b q).inFlight = [] := by
    intro q hq
    split
    · unfold afterBox
      split <;> rfl
    · cases q with
      | append mail => exact absurd rfl (hq mail)
      | _ => rfl
  have hstep : (∀ mail, s.place m.kernel.currentThread ≠ .append mail) →
      Contents O ident (m.setBox O b s) → Inv O ident (m.setBox O b s) := by
    intro hna hc
    refine h.setBox (SynchList.State.local_advance hs) ((h.boxes b hv.lt).advance ha hs)
      (fun b' hb' => by simp [hp, Place.inBox, hb'.symm]) (by simp [hp]) ?_ hc
    cases hq : s.place m.kernel.currentThread with
    | append mail => exact absurd hq (hna mail)
    | _ => exact hv.lt
  rcases SynchList.State.advance_appended hs with ⟨mail, hpl, hpl', hap⟩ | ⟨hno, hap⟩
  · obtain rfl : p = .append mail := hpb.symm.trans hpl
    obtain ⟨hw, -, hto⟩ := hv
    change s.place m.kernel.currentThread = .appended at hpl'
    refine hstep (by simp [hpl'])
      (h.contents.append (by rw [← hw, hp]; rfl) hto ?_ ?_ rfl rfl rfl rfl)
    · rw [← hw]
      simp only [Machine.setBox, update_self]
      exact hflight _ (by simp [hpl'])
    · simp [Machine.setBox, hap, Machine.box]
  · refine hstep (fun mail => (hno mail).2) (h.contents.congr ?_ ?_ rfl rfl rfl rfl)
    · refine inFlight_update ((hflight _ fun mail => (hno mail).2).trans ?_)
      rw [hp]
      cases p with
      | append mail => exact absurd hpb (hno mail).1
      | _ => rfl
    · simp [Machine.setBox, hap, Machine.box]

theorem callP (h : Inv O ident m) (hp : m.place m.kernel.currentThread = .deliver)
    (hs : m.call (.p messageAvailable) .arriving = some m') : Inv O ident m' := by
  have hw : m.kernel.currentThread = O.worker := by
    have := h.valid m.kernel.currentThread
    rwa [hp] at this
  obtain ⟨k, hk, rfl⟩ := Option.map_eq_some_iff.mp hs
  have hb := h.boxes.other (a := .p messageAvailable) (by simp [Action.Avoids, Action.uses])
    (by simp [hp, Place.inBox]) hk
  refine ⟨h.reach.step hk, valid_update h.valid hw, ?_, ?_, ?_⟩
  · exact hb.goTo (t := m.kernel.currentThread) (by simp [hp, Place.inBox])
      (by simp [Place.inBox])
  · obtain ⟨-, rfl⟩ := step_call rfl hk
    exact h.arrivals.callP hw hp
  · exact h.contents.congr (inFlight_update (by rw [hp]; rfl)) rfl rfl rfl rfl rfl

theorem of_quiet {β : Type*} {x : Option β} {f : β → Machine} {out : Option Outgoing}
    (hs : x.map (fun y => (f y, none)) = some (m', out))
    (h : ∀ y, x = some y → Inv O ident (f y)) : Inv O ident m' ∧ ∀ p ∈ out, p.Valid := by
  obtain ⟨y, hy, he⟩ := Option.map_eq_some_iff.mp hs
  obtain ⟨rfl, rfl⟩ := Prod.mk.inj he
  exact ⟨h y hy, by simp⟩

theorem advance {lost : Bool} {out : Option Outgoing} (h : Inv O ident m)
    (ha : m.kernel.AtCall) (hs : m.advance O ident lost buf = some (m', out)) :
    Inv O ident m' ∧ ∀ p ∈ out, p.Valid := by
  have hv := h.valid m.kernel.currentThread
  unfold Machine.advance at hs
  cases hp : m.place m.kernel.currentThread with
  | idle => simp [hp] at hs
  | send hdr buffer letter =>
    simp only [hp] at hs
    exact h.networkSend hp hs
  | sent =>
    simp only [hp] at hs
    refine of_quiet hs fun m₁ hs => ?_
    exact h.call Aside.p_messageSent (by rw [hp]; rfl) rfl (by trivial) hs
  | sending =>
    simp only [hp] at hs
    refine of_quiet hs fun m₁ hs => ?_
    exact h.call Aside.release_sendLock (by rw [hp]; rfl) rfl (by trivial) hs
  | deliver =>
    simp only [hp] at hs
    exact of_quiet hs fun m₁ hs => h.callP hp hs
  | arriving =>
    simp only [hp] at hs
    exact of_quiet hs fun m₁ hs => h.networkReceive ha hp hs
  | put b mail =>
    simp only [hp] at hs
    rw [hp] at hv
    refine of_quiet hs fun s hs => ?_
    exact h.enterBox hv.2.1 (by simp [hp, Place.inBox]) (by simp [hp]) (.inr ⟨mail, rfl⟩) hv
      (by rw [hp]; rfl) hs
  | box b p =>
    simp only [hp] at hs
    exact of_quiet hs fun s hs => h.advanceBox ha hp hs

theorem step {a : Action} {out : Option Outgoing} (h : Inv O ident m)
    (hs : m.step O ident a = some (m', out)) : Inv O ident m' ∧ ∀ p ∈ out, p.Valid := by
  have hidle : (m.place m.kernel.currentThread).isIdle = true →
      m.place m.kernel.currentThread = .idle := by
    cases m.place m.kernel.currentThread <;> simp [Place.isIdle]
  cases a with
  | advance lost buf =>
    simp only [Machine.step, Option.ite_none_right_eq_some] at hs
    exact h.advance hs.1 hs.2
  | other a =>
    simp only [Machine.step, Option.ite_none_right_eq_some] at hs
    obtain ⟨⟨ha, hi⟩, hs⟩ := hs
    refine of_quiet hs fun k hk => h.other (.of_avoids ha) (fun hc => ?_) hk
    rw [hidle (hi hc)]
    exact fun _ => rfl
  | send to_ mailHdr data buf =>
    simp only [Machine.step, Option.ite_none_right_eq_some] at hs
    exact of_quiet hs.2 fun m₁ hm => h.callSend hs.1 hm
  | receive b =>
    simp only [Machine.step, Option.ite_none_right_eq_some] at hs
    obtain ⟨⟨hi, h0, hb⟩, hs⟩ := hs
    have hb' : b.toNat < O.numBoxes := by omega
    refine of_quiet hs fun s hs => ?_
    exact h.enterBox hb' (by simp [hidle hi, Place.inBox]) (by simp [hidle hi]) (.inl rfl) hb'
      (by rw [hidle hi]; rfl) hs
  | poll => exact of_quiet hs fun m₁ hm => h.checkPktAvail hm
  | sendDone => exact of_quiet hs fun m₁ hm => h.sendDone hm

theorem deliver {p : Outgoing} (h : Inv O p.to_ m) (hp : p.Valid) : Inv O p.to_ (m.deliver p) := by
  refine ⟨h.reach, h.valid, h.boxes.congr fun _ => rfl, h.arrivals, ?_, h.contents.inbox, ?_⟩
  · simp only [Machine.deliver, List.mem_append, List.mem_singleton]
    rintro w (hw | rfl)
    · exact h.contents.socket w hw
    · exact ⟨hp.to_, hp.isMail⟩
  · intro b
    have hq : (m.deliver p).pipeline O = m.pipeline O ++ [p.letter] := by
      simp only [Machine.deliver, Machine.pipeline, List.map_append, List.map_cons, List.map_nil,
        hp.letter, List.append_assoc]
      rfl
    have hb := congrArg (· ++ [p.letter].filter (·.isFor b)) (h.contents.fifo b)
    rw [hq, List.filter_append, ← List.append_assoc]
    exact (List.filter_append ..).trans hb

theorem of_initial (h : m.Initial O) : Inv O ident m := by
  have hpc : ∀ t, m.kernel.pc t ≠ .semaphoreP messageAvailable := by
    intro t
    rw [h.kernel.pc t]
    split <;> simp
  have hflight : ∀ t, (O.afterBox t).inFlight = [] ∧ O.afterBox t ≠ .arriving ∧
      ∀ b, (O.afterBox t).inBox b = .idle := by
    intro t
    unfold afterBox
    split <;> simp [Place.inFlight, Place.inBox]
  refine ⟨.init h.kernel, fun t => h.place t ▸ Place.valid_afterBox, fun b _ => ?_, ?_, ?_⟩
  · exact SynchList.Inv.of_initial ⟨h.kernel, fun t => by simp [Machine.box, h.place, hflight],
      h.list b, h.appended b, h.removed b⟩
  · refine ⟨fun t ht => absurd ht (hpc t), .inl ⟨not_not.mpr h.inHdr, fun hp => ?_, h.value⟩⟩
    exact (hflight _).2.1 ((h.place _).symm.trans hp.1)
  · refine ⟨by simp [h.socket], fun hn => absurd h.inHdr hn, fun b => ?_⟩
    simp [Machine.pipeline, h.arrived, h.appended, h.place, hflight, h.inHdr, h.socket]

end Inv

/-! ## All machines -/

theorem inv_of_reachable {ms : Machines} (h : Reachable (system O) ms) :
    ∀ a, Inv O a (ms a) := by
  refine Reachable.invariant (S := system O) (P := fun ms => ∀ a, Inv O a (ms a))
    (fun ms hi a => .of_initial (hi a)) ?_ h
  rintro ms ⟨a, act⟩ ms' hi hs
  obtain ⟨⟨m', out⟩, hm, rfl⟩ := Option.map_eq_some_iff.mp hs
  obtain ⟨hm', hout⟩ := (hi a).step hm
  have hi' : ∀ c, Inv O c (update ms a m' c) :=
    (forall_update_iff ms fun c m => Inv O c m).mpr ⟨hm', fun c _ => hi c⟩
  cases out with
  | none => exact hi'
  | some p =>
    exact (forall_update_iff _ fun c m => Inv O c m).mpr
      ⟨(hi' p.to_).deliver (hout p rfl), fun c _ => hi' c⟩

/-- For any number of machines and threads and any interleaving of `Send`, `Receive`, the postal
workers and the interrupts: the messages that have been taken out of a box, in the order in
which they left it, are a prefix of the messages for this machine and box that have arrived,
in the order of their arrival. A message is what its sender passed to `Send`, with the address
of the sending machine. -/
theorem received_prefix_of_arrived {ms : Machines} (h : Reachable (system O) ms) (a : BitVec 32)
    (b : ℕ) (hb : b < O.numBoxes) :
    ((ms a).removed b).map Mail.letter <+:
      (ms a).arrived.filter fun x => x.mailHdr.to_.toInt = b := by
  have hi := inv_of_reachable h a
  have hf : (ms a).appended b = (ms a).removed b ++ (ms a).list b := (hi.boxes b hb).fifo
  have hc := hi.contents.fifo b
  simp only [Letter.isFor, hf, List.map_append, List.append_assoc] at hc
  exact ⟨_, hc.symm⟩

def Machine.boot (O : Office) : Machine where
  kernel := .boot 0
  place := O.afterBox
  list _ := []
  appended _ := []
  removed _ := []
  inHdr := ⟨0, 0, 0⟩
  inbox _ := 0
  sendBusy := false
  sends := 0
  socket := []
  arrived := []

/-- Thread 0 of machine 6 waits in `Receive`, machine 5 sends a byte, and the worker of machine 6
delivers it. -/
def exchange : List (BitVec 32 × Action) :=
  let advance (b : UInt8) : Action := .advance false fun _ => b
  [(6, .other (.fork 1)), (6, .receive 0), (6, advance 0), (6, .other .dispatch), (6, advance 0),
    (5, .send 6 ⟨0, 2, 1⟩ (fun _ => 7) fun _ => 3), (5, advance 4), (6, .poll),
    (6, .other .dispatch), (6, advance 9), (6, advance 9), (6, advance 9), (6, advance 9),
    (6, advance 9), (6, advance 9), (6, .other .dispatch), (6, .other .reacquire), (6, advance 0),
    (6, advance 0)]

/-- Machine 5 sends a byte to box 0 of machine 6, where thread 0 waits for it in `Receive`. -/
theorem received_prefix_of_arrived_once :
    ∃ ms, Reachable (system ⟨1, 1⟩) ms ∧
      ((ms 6).removed 0).map Mail.letter = [⟨5, ⟨0, 2, 1⟩, [7]⟩] ∧
      ((ms 6).removed 0).map Mail.letter <+:
        (ms 6).arrived.filter fun x => x.mailHdr.to_.toInt = (0 : ℕ) := by
  have hs : (exec (Machines.step ⟨1, 1⟩) (fun _ => .boot ⟨1, 1⟩) exchange).any
      (fun ms => ((ms 6).removed 0).map Mail.letter = [⟨5, ⟨0, 2, 1⟩, [7]⟩]) = true := by
    decide +kernel
  obtain ⟨ms, hr, hm⟩ := run_of_any_exec hs
  have hr' : Reachable (system ⟨1, 1⟩) ms :=
    ⟨_, _, fun _ => ⟨Kernel.initial_boot (by decide), by decide, rfl, fun _ => rfl, fun _ => rfl,
      fun _ => rfl, fun _ => rfl, rfl, rfl, rfl, rfl⟩, hr⟩
  exact ⟨ms, hr', of_decide_eq_true hm, received_prefix_of_arrived hr' 6 0 (by decide)⟩

end Nachos.Network
