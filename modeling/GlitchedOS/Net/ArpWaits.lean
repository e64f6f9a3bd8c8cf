/-
Which requests can rely on the shared flag.  A task that finds the flag cleared takes its
own reply to have come; this is right as long as nobody clears the flag while another
task's target is still missing from the cache.
-/
import GlitchedOS.Lib.Run
import GlitchedOS.Net.Arp

namespace GlitchedOS

namespace ArpPc

/-- The task has set the flag and has not yet read it for the last time. -/
def Waits : ArpPc → Prop
  | .send _ | .waitTest _ _ | .signalTest _ _ | .brokeTest _ | .finalTest => True
  | _ => False

/-- The task neither waits, nor looks for a reply that has come, nor has returned. -/
def Silent : ArpPc → Prop
  | .lookFirst _ | .setWaiting | .interrupted | .timedOut => True
  | _ => False

/-- The task is not inside `arp_request`. -/
def Outside : ArpPc → Prop
  | .idle | .returned _ => True
  | _ => False

def Clears : ArpPc → Prop
  | .interrupted | .timedOut => True
  | _ => False

end ArpPc

/-- The address is in the cache from entry `first` on. -/
def CachedFrom (cache : Nat → ArpEntry) (first : Nat) (ip : IpAddr) : Prop :=
  ∃ i, first ≤ i ∧ i < arpCacheSize ∧ (cache i).ip = ip

/-- A returned call: with 0 the buffer holds the target's address, and no other value
than the two errors comes back. -/
def ArpTask.Answered (hosts : IpAddr → MacAddr) (task : ArpTask) (ret : Int) : Prop :=
  ret = 0 ∧ task.targetMacBuffer = hosts task.targetIp ∨ ret = eHostunreach ∨ ret = eIntr

namespace ArpState

variable (cards : NetCards) (hosts : IpAddr → MacAddr)

def Correct (s : ArpState) : Prop :=
  ∀ t ret, (s.tasks t).pc = .returned ret → (s.tasks t).Answered hosts ret

/-- What may happen: calls for a nonzero target from tasks that are not inside the
function, replies in which a host gives its own address, and room in the cache. -/
def Admissible (s : ArpState) : ArpEvent → Prop
  | .call t targetIp _ _ => targetIp ≠ zeroIp ∧ (s.tasks t).pc.Outside
  | .run _ _ _ => True
  | .receive request card =>
      (request.opcode = arpOpcodeReply → request.senderMac = hosts request.senderIp) ∧
        (s.Accepts cards request card → s.freeEntry.isSome)

/-- Nobody clears the flag while another task waits for an address that is not in the
cache and does not come with this very reply. -/
def Undisturbed (s : ArpState) : ArpEvent → Prop
  | .call _ _ _ _ => True
  | .run t _ _ => (s.tasks t).pc.Clears → ∀ other ≠ t, (s.tasks other).pc.Waits →
      CachedFrom s.cache 0 (s.tasks other).targetIp
  | .receive request card => s.Accepts cards request card → ∀ t, (s.tasks t).pc.Waits →
      (s.tasks t).targetIp = request.senderIp ∨ CachedFrom s.cache 0 (s.tasks t).targetIp

end ArpState

/-! ### The invariant -/

/-- What holds of a task between two events. -/
structure ArpTask.Ready (hosts : IpAddr → MacAddr) (cache : Nat → ArpEntry)
    (waitingForReply : Bool) (task : ArpTask) : Prop where
  target : task.pc ≠ .idle → task.targetIp ≠ zeroIp
  waits : task.pc.Waits → waitingForReply = true ∨ CachedFrom cache 0 task.targetIp
  last : ∀ i, task.pc = .lookLast i → CachedFrom cache i task.targetIp
  answered : ∀ ret, task.pc = .returned ret → task.Answered hosts ret

structure ArpState.Ready (hosts : IpAddr → MacAddr) (s : ArpState) : Prop where
  cache : ∀ i, (s.cache i).ip ≠ zeroIp → (s.cache i).mac = hosts (s.cache i).ip
  task : ∀ t, (s.tasks t).Ready hosts s.cache s.waitingForReply

namespace ArpState

variable {cards : NetCards} {hosts : IpAddr → MacAddr} {s : ArpState}

theorem start_ready : start.Ready hosts where
  cache _ hi := absurd rfl hi
  task _ := ⟨fun hidle => absurd rfl hidle, False.elim, fun _ => ArpPc.noConfusion,
    fun _ => ArpPc.noConfusion⟩

theorem Ready.setTask (h : s.Ready hosts) {t : Nat} {task : ArpTask}
    (htask : task.Ready hosts s.cache s.waitingForReply) : (s.setTask t task).Ready hosts where
  cache := h.cache
  task other := by
    by_cases hother : other = t
    · subst other
      simpa [ArpState.setTask] using htask
    · simpa [ArpState.setTask, hother] using h.task other

/-- A task goes on to a place where nothing is asked of it but a target. -/
theorem Ready.goto_silent (h : s.Ready hosts) {t : Nat} {pc : ArpPc}
    (hinside : (s.tasks t).pc ≠ .idle) (hsilent : pc.Silent) : (s.goto t pc).Ready hosts := by
  apply h.setTask
  refine ⟨fun _ => (h.task t).target hinside, ?_, ?_, ?_⟩ <;> dsimp only
  · cases pc <;> first | exact False.elim | exact hsilent.elim
  · rintro i rfl
    exact hsilent.elim
  · rintro ret rfl
    exact hsilent.elim

theorem Ready.goto_waits (h : s.Ready hosts) {t : Nat} {pc : ArpPc}
    (hinside : (s.tasks t).pc ≠ .idle)
    (hreply : s.waitingForReply = true ∨ CachedFrom s.cache 0 (s.tasks t).targetIp)
    (hwaits : pc.Waits) : (s.goto t pc).Ready hosts := by
  apply h.setTask
  refine ⟨fun _ => (h.task t).target hinside, fun _ => hreply, ?_, ?_⟩ <;> dsimp only
  · rintro i rfl
    exact hwaits.elim
  · rintro ret rfl
    exact hwaits.elim

/-- A task whose address is in the cache from `i` on looks for it there. -/
theorem Ready.goto_last (h : s.Ready hosts) {t i : Nat} (hinside : (s.tasks t).pc ≠ .idle)
    (hcached : CachedFrom s.cache i (s.tasks t).targetIp) :
    (s.goto t (.lookLast i)).Ready hosts := by
  apply h.setTask
  refine ⟨fun _ => (h.task t).target hinside, False.elim, fun j hpc => ?_,
    fun _ => ArpPc.noConfusion⟩
  rw [← ArpPc.lookLast.inj hpc]
  exact hcached

theorem Ready.setWaiting (h : s.Ready hosts) :
    Ready hosts { s with waitingForReply := true } where
  cache := h.cache
  task t := ⟨(h.task t).target, fun _ => .inl rfl, (h.task t).last, (h.task t).answered⟩

/-- Clearing the flag is right when all that wait have their address in the cache. -/
theorem Ready.clearWaiting (h : s.Ready hosts)
    (hcached : ∀ t, (s.tasks t).pc.Waits → CachedFrom s.cache 0 (s.tasks t).targetIp) :
    Ready hosts { s with waitingForReply := false } where
  cache := h.cache
  task t := ⟨(h.task t).target, fun hwaits => .inr (hcached t hwaits), (h.task t).last,
    (h.task t).answered⟩

theorem Ready.sent (h : s.Ready hosts) (sent : List (Nat × ArpPacket)) :
    Ready hosts { s with sent := sent } where
  cache := h.cache
  task := h.task

/-! ### Replies -/

theorem freeEntry_spec {i : Nat} (hfree : s.freeEntry = some i) :
    i < arpCacheSize ∧ (s.cache i).ip = zeroIp := by
  rw [freeEntry] at hfree
  have hmem := List.mem_of_find?_eq_some hfree
  have hfound := List.find?_some hfree
  exact ⟨List.mem_range.mp hmem, beq_iff_eq.mp hfound⟩

theorem insert_of_some {i : Nat} {ip : IpAddr} {mac : MacAddr} (hfree : s.freeEntry = some i) :
    s.insert ip mac = { s with cache := Function.update s.cache i ⟨ip, mac⟩ } := by
  unfold ArpState.insert
  simp only [hfree]

/-- An address in the cache stays there when a free entry is taken. -/
theorem cachedFrom_update {i first : Nat} {entry : ArpEntry} {ip : IpAddr}
    (hfree : (s.cache i).ip = zeroIp) (hip : ip ≠ zeroIp) (h : CachedFrom s.cache first ip) :
    CachedFrom (Function.update s.cache i entry) first ip := by
  obtain ⟨j, hfirst, hsize, hj⟩ := h
  refine ⟨j, hfirst, hsize, ?_⟩
  have hne : j ≠ i := by
    rintro rfl
    exact hip (hj.symm.trans hfree)
  rw [Function.update_of_ne hne]
  exact hj

theorem Ready.insert (h : s.Ready hosts) {ip : IpAddr} {mac : MacAddr}
    (hmac : mac = hosts ip) : (s.insert ip mac).Ready hosts := by
  unfold ArpState.insert
  split
  · rename_i i hfound
    obtain ⟨hsize, hfree⟩ := freeEntry_spec hfound
    constructor
    · intro j hj
      by_cases hji : j = i
      · subst j
        simpa using hmac
      · simp only [Function.update_of_ne hji] at hj ⊢
        exact h.cache j hj
    · intro t
      have htask := h.task t
      refine ⟨htask.target, fun hwaits => ?_, fun j hpc => ?_, htask.answered⟩
      · have hinside : (s.tasks t).pc ≠ .idle := by
          intro hidle
          rw [hidle] at hwaits
          exact hwaits
        exact (htask.waits hwaits).imp_right
          (cachedFrom_update hfree (htask.target hinside))
      · have hinside : (s.tasks t).pc ≠ .idle := by
          intro hidle
          exact ArpPc.noConfusion (hidle.symm.trans hpc)
        exact cachedFrom_update hfree (htask.target hinside) (htask.last j hpc)
  · exact h

/-- With room, the sender is in the cache afterwards, and so is everybody who was. -/
theorem insert_cached {ip other : IpAddr} {mac : MacAddr} (hroom : s.freeEntry.isSome)
    (hother : other ≠ zeroIp) (h : other = ip ∨ CachedFrom s.cache 0 other) :
    CachedFrom (s.insert ip mac).cache 0 other := by
  cases hfound : s.freeEntry with
  | none => simp [hfound] at hroom
  | some i =>
      obtain ⟨hsize, hfree⟩ := freeEntry_spec hfound
      simp only [insert_of_some hfound]
      rcases h with rfl | hcached
      · refine ⟨i, Nat.zero_le i, hsize, ?_⟩
        simp
      · exact cachedFrom_update hfree hother hcached

theorem insert_tasks (ip : IpAddr) (mac : MacAddr) : (s.insert ip mac).tasks = s.tasks := by
  unfold ArpState.insert
  split <;> rfl

theorem Ready.arpReply (h : s.Ready hosts) {request : ArpPacket} {card : Nat}
    (hadmissible : s.Admissible cards hosts (.receive request card))
    (hundisturbed : s.Undisturbed cards (.receive request card)) :
    (s.arpReply cards request card).Ready hosts := by
  obtain ⟨hmac, hroom⟩ := hadmissible
  have haccept : Ready hosts (if s.Accepts cards request card then
      { s.insert request.senderIp request.senderMac with waitingForReply := false }
      else s) := by
    by_cases haccepts : s.Accepts cards request card
    · rw [if_pos haccepts]
      apply (h.insert (hmac haccepts.2.1)).clearWaiting
      rw [insert_tasks]
      intro t hwaits
      have hinside : (s.tasks t).pc ≠ .idle := by
        intro hidle
        rw [hidle] at hwaits
        exact hwaits
      exact insert_cached (hroom haccepts) ((h.task t).target hinside)
        (hundisturbed haccepts t hwaits)
    · rw [if_neg haccepts]
      exact h
  unfold ArpState.arpReply
  dsimp only
  split
  · exact haccept
  · split
    · exact haccept
    · exact haccept.sent _

/-! ### Requests -/

/-- A round of a scan finds the target's own address, or leaves a promise for the rest. -/
theorem Ready.look (h : s.Ready hosts) {t i : Nat} {next : ArpPc}
    (hinside : (s.tasks t).pc ≠ .idle)
    (hnext : (s.cache i).ip ≠ (s.tasks t).targetIp → (s.goto t next).Ready hosts) :
    (s.look t i next).Ready hosts := by
  have htarget := (h.task t).target hinside
  unfold ArpState.look
  dsimp only
  split
  · rename_i hfound
    apply h.setTask
    refine ⟨fun _ => htarget, False.elim, fun _ => ArpPc.noConfusion, fun ret hpc => .inl ?_⟩
    constructor
    · exact (ArpPc.returned.inj hpc).symm
    · dsimp only
      rw [h.cache i (hfound ▸ htarget), hfound]
  · rename_i hmissed
    exact hnext hmissed

/-- A task gives up and clears the flag, which nobody else depends on. -/
theorem Ready.clear_return (h : s.Ready hosts) {t : Nat} {uptime : BitVec 64} {signal : Bool}
    {pc : ArpPc} {ret : Int} (hundisturbed : s.Undisturbed cards (.run t uptime signal))
    (hpc : (s.tasks t).pc = pc) (hclears : pc.Clears) (hret : ret = eHostunreach ∨ ret = eIntr) :
    (goto { s with waitingForReply := false } t (.returned ret)).Ready hosts := by
  have hclear := h.clearWaiting fun other hwaits => by
    by_cases hother : other = t
    · subst other
      rw [hpc] at hwaits
      cases pc <;> first | exact hwaits.elim | exact hclears.elim
    · exact hundisturbed (hpc ▸ hclears) other hother hwaits
  apply hclear.setTask
  refine ⟨fun _ => (h.task t).target ?_, False.elim, fun _ => ArpPc.noConfusion,
    fun other hother => .inr (ArpPc.returned.inj hother ▸ hret)⟩
  intro hidle
  rw [← hpc, hidle] at hclears
  exact hclears

theorem Ready.arpRequest (h : s.Ready hosts) (t : Nat) (uptime : BitVec 64) (signal : Bool)
    (hundisturbed : s.Undisturbed cards (.run t uptime signal)) :
    (s.arpRequest cards t uptime signal).Ready hosts := by
  have htask := h.task t
  unfold ArpState.arpRequest
  dsimp only
  cases hpc : (s.tasks t).pc with
  | idle => exact h
  | returned ret => exact h
  | lookFirst i =>
      have hinside : (s.tasks t).pc ≠ .idle := ne_of_eq_of_ne hpc ArpPc.noConfusion
      dsimp only
      split
      · exact h.look hinside fun _ => h.goto_silent hinside trivial
      · exact h.goto_silent hinside trivial
  | setWaiting =>
      have hinside : (s.tasks t).pc ≠ .idle := ne_of_eq_of_ne hpc ArpPc.noConfusion
      dsimp only
      exact h.setWaiting.goto_waits hinside (.inl rfl) trivial
  | send i =>
      have hinside : (s.tasks t).pc ≠ .idle := ne_of_eq_of_ne hpc ArpPc.noConfusion
      have hwaits := htask.waits (hpc ▸ trivial)
      dsimp only
      split
      · rw [if_neg (by decide)]
        exact (h.sent _).goto_waits hinside hwaits trivial
      · exact h.goto_waits hinside hwaits trivial
  | waitTest i startTime =>
      have hinside : (s.tasks t).pc ≠ .idle := ne_of_eq_of_ne hpc ArpPc.noConfusion
      have hwaits := htask.waits (hpc ▸ trivial)
      dsimp only
      split <;> exact h.goto_waits hinside hwaits trivial
  | signalTest i startTime =>
      have hinside : (s.tasks t).pc ≠ .idle := ne_of_eq_of_ne hpc ArpPc.noConfusion
      have hwaits := htask.waits (hpc ▸ trivial)
      dsimp only
      split
      · exact h.goto_silent hinside trivial
      · exact h.goto_waits hinside hwaits trivial
  | brokeTest i =>
      have hinside : (s.tasks t).pc ≠ .idle := ne_of_eq_of_ne hpc ArpPc.noConfusion
      have hwaits := htask.waits (hpc ▸ trivial)
      dsimp only
      split <;> exact h.goto_waits hinside hwaits trivial
  | finalTest =>
      have hinside : (s.tasks t).pc ≠ .idle := ne_of_eq_of_ne hpc ArpPc.noConfusion
      have hwaits := htask.waits (hpc ▸ trivial)
      dsimp only
      split
      · exact h.goto_silent hinside trivial
      · rename_i hclear
        exact h.goto_last hinside (hwaits.resolve_left hclear)
  | interrupted =>
      dsimp only
      exact h.clear_return hundisturbed hpc trivial (.inr rfl)
  | timedOut =>
      dsimp only
      exact h.clear_return hundisturbed hpc trivial (.inl rfl)
  | lookLast i =>
      have hinside : (s.tasks t).pc ≠ .idle := ne_of_eq_of_ne hpc ArpPc.noConfusion
      obtain ⟨j, hij, hsize, hj⟩ := htask.last i hpc
      dsimp only
      rw [if_pos (Nat.lt_of_le_of_lt hij hsize)]
      refine h.look hinside fun hmissed => h.goto_last hinside ⟨j, ?_, hsize, hj⟩
      have hne : i ≠ j := by
        rintro rfl
        exact hmissed hj
      omega

/-- One event keeps every call right. -/
theorem Ready.step (h : s.Ready hosts) (event : ArpEvent)
    (hadmissible : s.Admissible cards hosts event)
    (hundisturbed : s.Undisturbed cards event) : (s.step cards event).Ready hosts := by
  cases event with
  | call t targetIp targetMacBuffer card =>
      apply h.setTask
      exact ⟨fun _ => hadmissible.1, False.elim, fun _ => ArpPc.noConfusion,
        fun _ => ArpPc.noConfusion⟩
  | run t uptime signal => exact h.arpRequest t uptime signal hundisturbed
  | receive request card => exact h.arpReply hadmissible hundisturbed

end ArpState

/-- Address resolution is right through every run in which nobody clears the flag while
another task still waits for an address that is not in the cache. -/
theorem arp_requests_correct (cards : NetCards) (hosts : IpAddr → MacAddr)
    (events : List ArpEvent)
    (hadmissible : Along (ArpState.step cards) (ArpState.Admissible cards hosts) .start events)
    (hundisturbed : Along (ArpState.step cards) (ArpState.Undisturbed cards) .start events) :
    Along (ArpState.step cards) (fun s event => (s.step cards event).Correct hosts)
      .start events := by
  have hready := Along.invariant (ArpState.Ready hosts)
    (fun s event hs hevent => hs.step event hevent.1 hevent.2) ArpState.start_ready
    (hadmissible.and hundisturbed)
  exact hready.mono fun s event hs t ret hpc => (hs.task t).answered ret hpc

/-- The address of every host, for runs with hosts of one vendor. -/
def vendorMac (ip : IpAddr) : MacAddr := ⟨0x52, 0x54, ip.b0, ip.b1, ip.b2, ip.b3⟩

def oneCard : NetCards := ⟨fun _ => ⟨10, 0, 0, 1⟩, fun _ => vendorMac ⟨10, 0, 0, 1⟩⟩

def replyFrom (ip : IpAddr) : ArpPacket :=
  ⟨arpHtypeEthernet, arpPtypeIpv4, arpHlenEthernet, arpPlenIpv4, arpOpcodeReply, vendorMac ip,
    ip, oneCard.getMac 0, oneCard.getIp 0⟩

/-! ### Two tasks wait -/

namespace ArpState

variable {cards : NetCards} {s : ArpState} {t : Nat}

theorem goto_self {pc : ArpPc} (hpc : (s.tasks t).pc = pc) : s.goto t pc = s := by
  subst hpc
  simp [goto, ArpState.setTask]

theorem goto_goto (first second : ArpPc) : (s.goto t first).goto t second = s.goto t second := by
  simp [goto, ArpState.setTask]

/-- The step of a task where nothing is read but the flag. -/
def runs (t n : Nat) : List ArpEvent := List.replicate n (.run t 0 false)

theorem undisturbed_run {pc : ArpPc} (hpc : (s.tasks t).pc = pc) (hcalm : ¬ pc.Clears) :
    s.Undisturbed cards (.run t 0 false) := fun hclears => absurd (hpc ▸ hclears) hcalm

variable (cards t) in
theorem scan_misses (s : ArpState) (pcAt : Nat → ArpPc) (hcalm : ∀ i, ¬ (pcAt i).Clears)
    (hround : ∀ (s : ArpState) i, (s.tasks t).pc = pcAt i → i < arpCacheSize →
      s.arpRequest cards t 0 false = s.look t i (pcAt (i + 1)))
    (n i : Nat) (hpc : (s.tasks t).pc = pcAt i) (hn : i + n ≤ arpCacheSize)
    (hmissed : ∀ j, (s.cache j).ip ≠ (s.tasks t).targetIp) :
    (runs t n).foldl (step cards) s = s.goto t (pcAt (i + n)) ∧
      Along (step cards) (Undisturbed cards) s (runs t n) := by
  induction n generalizing s i with
  | zero => exact ⟨(goto_self hpc).symm, trivial⟩
  | succ n ih =>
      have hstep : s.step cards (.run t 0 false) = s.goto t (pcAt (i + 1)) := by
        rw [step, hround s i hpc (by omega), look]
        exact if_neg (hmissed i)
      obtain ⟨hrest, hundisturbed⟩ := ih (s.goto t (pcAt (i + 1))) (i + 1)
        (by simp [goto, ArpState.setTask]) (by omega)
        (by simpa [goto, ArpState.setTask] using hmissed)
      rw [goto_goto, Nat.add_right_comm] at hrest
      rw [runs, List.replicate_succ, List.foldl_cons, Along, hstep]
      exact ⟨hrest, undisturbed_run hpc (hcalm i), hundisturbed⟩

def beginWaiting (t : Nat) (targetIp : IpAddr) : List ArpEvent :=
  [.call t targetIp zeroMac 0] ++ runs t arpCacheSize ++ runs t 3

variable (cards t) in
/-- A call for an address that is not in the cache comes to wait. -/
theorem beginWaiting_waits (targetIp : IpAddr) (hmissed : ∀ j, (s.cache j).ip ≠ targetIp) :
    let s' := (beginWaiting t targetIp).foldl (step cards) s
    (s'.cache = s.cache ∧ s'.waitingForReply = true ∧
      s'.tasks = Function.update s.tasks t ⟨targetIp, 0, zeroMac, .waitTest 0 0⟩) ∧
      Along (step cards) (Undisturbed cards) s (beginWaiting t targetIp) := by
  obtain ⟨hscan, hundisturbed⟩ := scan_misses cards t
    (s.setTask t ⟨targetIp, 0, zeroMac, .lookFirst 0⟩) .lookFirst (fun _ => id)
    (fun s i hpc hi => by simp [arpRequest, hpc, hi]) arpCacheSize 0
    (by simp [ArpState.setTask]) (Nat.le_of_eq (Nat.zero_add _))
    (by simpa [ArpState.setTask] using hmissed)
  rw [beginWaiting, List.append_assoc, List.foldl_append, List.foldl_append, List.foldl_cons,
    List.foldl_nil, Along.append, Along.append, List.foldl_cons, List.foldl_nil, step, hscan]
  refine ⟨?_, ⟨trivial, trivial⟩, hundisturbed, ?_⟩
  · simp [runs, List.replicate, step, arpRequest, goto, ArpState.setTask, sendEthernet]
  · simp [runs, List.replicate, step, arpRequest, goto, ArpState.setTask, Along, Undisturbed,
      ArpPc.Clears]

variable (cards t) in
/-- A task that finds the flag cleared without its address in the cache fails. -/
theorem wakes_in_vain (i : Nat) (startTime : BitVec 32)
    (hpc : (s.tasks t).pc = .waitTest i startTime) (hflag : s.waitingForReply = false)
    (hmissed : ∀ j, (s.cache j).ip ≠ (s.tasks t).targetIp) :
    (((runs t 3 ++ runs t arpCacheSize ++ runs t 1).foldl (step cards) s).tasks t).pc =
      .returned (-1) := by
  have hwoken : (runs t 3).foldl (step cards) s = s.goto t (.lookLast 0) := by
    simp [runs, List.replicate, step, arpRequest, goto, ArpState.setTask, hpc, hflag]
  obtain ⟨hscan, -⟩ := scan_misses cards t (s.goto t (.lookLast 0)) .lookLast (fun _ => id)
    (fun s i hpc hi => by simp [arpRequest, hpc, hi])
    arpCacheSize 0 (by simp [goto, ArpState.setTask]) (Nat.le_of_eq (Nat.zero_add _))
    (by simpa [goto, ArpState.setTask] using hmissed)
  rw [List.foldl_append, List.foldl_append, hwoken, hscan]
  simp [runs, step, arpRequest, goto, ArpState.setTask]

variable (cards t) in
/-- A task that finds the flag cleared and its address in the first entry is answered. -/
theorem wakes_with_reply (i : Nat) (startTime : BitVec 32)
    (hpc : (s.tasks t).pc = .waitTest i startTime) (hflag : s.waitingForReply = false)
    (hentry : (s.cache 0).ip = (s.tasks t).targetIp) :
    (runs t 4).foldl (step cards) s = s.setTask t
        { s.tasks t with targetMacBuffer := (s.cache 0).mac, pc := .returned 0 } ∧
      Along (step cards) (Undisturbed cards) s (runs t 4) := by
  simp [runs, List.replicate, step, arpRequest, goto, look, ArpState.setTask, hpc, hflag, hentry,
    arpCacheSize, Along, Undisturbed, ArpPc.Clears]

theorem admissible_runs {hosts : IpAddr → MacAddr} (t n : Nat) :
    Along (step cards) (Admissible cards hosts) s (runs t n) := by
  induction n generalizing s with
  | zero => trivial
  | succ n ih => exact ⟨trivial, ih⟩

theorem admissible_beginWaiting {hosts : IpAddr → MacAddr} {targetIp : IpAddr}
    (htarget : targetIp ≠ zeroIp) (hidle : (s.tasks t).pc = .idle) :
    Along (step cards) (Admissible cards hosts) s (beginWaiting t targetIp) := by
  simp only [beginWaiting, Along.append]
  exact ⟨⟨⟨⟨htarget, by rw [hidle]; trivial⟩, trivial⟩, admissible_runs _ _⟩, admissible_runs _ _⟩

/-- A reply that somebody waits for goes to the first entry of an empty cache. -/
theorem arpReply_accepted (ip : IpAddr) (hcache : ∀ j, (s.cache j).ip = zeroIp)
    (hflag : s.waitingForReply = true) :
    let s' := s.step oneCard (.receive (replyFrom ip) 0)
    s.freeEntry = some 0 ∧ s'.cache = Function.update s.cache 0 ⟨ip, vendorMac ip⟩ ∧
      s'.waitingForReply = false ∧ s'.tasks = s.tasks := by
  have hfree : s.freeEntry = some 0 := by
    rw [freeEntry, show arpCacheSize = 1023 + 1 from rfl, List.range_succ_eq_map]
    exact List.find?_cons_of_pos (beq_iff_eq.mpr (hcache 0))
  have haccepts : s.Accepts oneCard (replyFrom ip) 0 := ⟨hflag, rfl, rfl⟩
  refine ⟨hfree, ?_⟩
  simp only [step, arpReply, if_pos haccepts, insert_of_some hfree]
  exact ⟨rfl, rfl, rfl⟩

/-- Two tasks wait, and the host that the first one asked for replies. -/
def replyToFirst (first second : IpAddr) : List ArpEvent :=
  beginWaiting 0 first ++ beginWaiting 1 second ++ [.receive (replyFrom first) 0]

def waitingTasks (first second : IpAddr) : Nat → ArpTask :=
  Function.update (Function.update start.tasks 0 ⟨first, 0, zeroMac, .waitTest 0 0⟩) 1
    ⟨second, 0, zeroMac, .waitTest 0 0⟩

/-- The reply goes to the first entry, and nobody is disturbed if both asked for one host. -/
theorem replyToFirst_spec (first second : IpAddr) (hfirst : first ≠ zeroIp)
    (hsecond : second ≠ zeroIp) :
    let s := (replyToFirst first second).foldl (step oneCard) .start
    (Along (step oneCard) (Admissible oneCard vendorMac) .start (replyToFirst first second) ∧
      (second = first →
        Along (step oneCard) (Undisturbed oneCard) .start (replyToFirst first second))) ∧
      s.cache = Function.update start.cache 0 ⟨first, vendorMac first⟩ ∧
      s.waitingForReply = false ∧ s.tasks = waitingTasks first second := by
  have hbegin : Along (step oneCard) (Admissible oneCard vendorMac) .start
      (beginWaiting 0 first) := admissible_beginWaiting hfirst rfl
  obtain ⟨⟨hcache, -, htasks⟩, hcalm⟩ := beginWaiting_waits oneCard 0
    (s := .start) first (fun _ => Ne.symm hfirst)
  simp only [replyToFirst, Along.append, List.foldl_append]
  generalize (beginWaiting 0 first).foldl (step oneCard) .start = one at hcache htasks ⊢
  have hbegin' : Along (step oneCard) (Admissible oneCard vendorMac) one
      (beginWaiting 1 second) :=
    admissible_beginWaiting hsecond (by rw [htasks]; rfl)
  obtain ⟨⟨hcache', hflag, htasks'⟩, hcalm'⟩ := beginWaiting_waits oneCard 1
    (s := one) second (fun _ => by rw [hcache]; exact Ne.symm hsecond)
  generalize (beginWaiting 1 second).foldl (step oneCard) one = both at hcache' hflag htasks' ⊢
  rw [hcache] at hcache'
  rw [htasks, ← waitingTasks] at htasks'
  obtain ⟨hfree, hfilled, hcleared, hsame⟩ := arpReply_accepted (s := both) first
    (fun _ => by rw [hcache']; rfl) hflag
  rw [hcache'] at hfilled
  rw [List.foldl_cons, List.foldl_nil]
  refine ⟨⟨⟨⟨hbegin, hbegin'⟩, ⟨fun _ => rfl, fun _ => by rw [hfree]; rfl⟩, trivial⟩,
    fun hone => ⟨⟨hcalm, hcalm'⟩, fun _ t hwaits => .inl ?_, trivial⟩⟩, hfilled, hcleared,
    hsame.trans htasks'⟩
  rw [htasks', waitingTasks] at hwaits ⊢
  by_cases ht : t = 1
  · subst ht
    exact hone
  · rw [Function.update_of_ne ht] at hwaits ⊢
    by_cases ht' : t = 0
    · subst ht'
      rfl
    · rw [Function.update_of_ne ht'] at hwaits
      exact hwaits.elim

/-- Two tasks that waited for one host and find its address are answered. -/
theorem both_answered {ip : IpAddr}
    (hcache : s.cache = Function.update start.cache 0 ⟨ip, vendorMac ip⟩)
    (hcleared : s.waitingForReply = false) (htasks : s.tasks = waitingTasks ip ip) :
    (∀ t < 2, ((runs 0 4 ++ runs 1 4).foldl (step oneCard) s).tasks t =
        ⟨ip, 0, vendorMac ip, .returned 0⟩) ∧
      Along (step oneCard) (Undisturbed oneCard) s (runs 0 4 ++ runs 1 4) := by
  obtain ⟨hfirst, hcalm⟩ := wakes_with_reply oneCard 0 (s := s) 0 0
    (by rw [htasks]; rfl) hcleared (by rw [hcache, htasks]; rfl)
  rw [List.foldl_append, Along.append, hfirst]
  obtain ⟨hsecond, hcalm'⟩ := wakes_with_reply oneCard 1
    (s := s.setTask 0 { s.tasks 0 with targetMacBuffer := (s.cache 0).mac, pc := .returned 0 })
    0 0 (by rw [ArpState.setTask, htasks]; rfl) hcleared
    (by rw [ArpState.setTask, hcache, htasks]; rfl)
  refine ⟨fun t ht => ?_, hcalm, hcalm'⟩
  rw [hsecond, ArpState.setTask, ArpState.setTask, hcache, htasks]
  obtain rfl | rfl : t = 0 ∨ t = 1 := by omega
  · rfl
  · rfl

end ArpState

/-- Two tasks wait for one host, and each reads on when its reply has come. -/
def sameReply : List ArpEvent :=
  ArpState.replyToFirst ⟨10, 0, 0, 2⟩ ⟨10, 0, 0, 2⟩ ++ (ArpState.runs 0 4 ++ ArpState.runs 1 4)

theorem sameReply_spec :
    (Along (ArpState.step oneCard) (ArpState.Admissible oneCard vendorMac) .start sameReply ∧
      Along (ArpState.step oneCard) (ArpState.Undisturbed oneCard) .start sameReply) ∧
      ∀ t < 2, (sameReply.foldl (ArpState.step oneCard) .start).tasks t =
        ⟨⟨10, 0, 0, 2⟩, 0, vendorMac ⟨10, 0, 0, 2⟩, .returned 0⟩ := by
  obtain ⟨⟨hadmissible, hundisturbed⟩, hcache, hcleared, htasks⟩ :=
    ArpState.replyToFirst_spec ⟨10, 0, 0, 2⟩ ⟨10, 0, 0, 2⟩ (by decide) (by decide)
  obtain ⟨hanswered, hcalm⟩ := ArpState.both_answered hcache hcleared htasks
  rw [sameReply, Along.append, Along.append, List.foldl_append, Along.append]
  exact ⟨⟨⟨hadmissible, ArpState.admissible_runs _ _, ArpState.admissible_runs _ _⟩,
    hundisturbed rfl, hcalm⟩, hanswered⟩

/-- The reply answers both. -/
theorem arp_requests_correct_both :
    Along (ArpState.step oneCard) (fun s event => (s.step oneCard event).Correct vendorMac)
        .start sameReply ∧
      ∀ t < 2, (sameReply.foldl (ArpState.step oneCard) .start).tasks t =
        ⟨⟨10, 0, 0, 2⟩, 0, vendorMac ⟨10, 0, 0, 2⟩, .returned 0⟩ :=
  ⟨arp_requests_correct _ _ _ sameReply_spec.1.1 sameReply_spec.1.2, sameReply_spec.2⟩

/-! ### Somebody else's reply -/

/-- Two tasks wait for different hosts, and the first host replies. -/
def otherReply : List ArpEvent :=
  ArpState.replyToFirst ⟨10, 0, 0, 2⟩ ⟨10, 0, 0, 3⟩ ++
    (ArpState.runs 1 3 ++ ArpState.runs 1 arpCacheSize ++ ArpState.runs 1 1)

/-- The second task is woken by the reply for the first, and its call fails as should
not happen. -/
theorem arp_request_woken_by_other_reply :
    Along (ArpState.step oneCard) (ArpState.Admissible oneCard vendorMac) .start otherReply ∧
      ((otherReply.foldl (ArpState.step oneCard) .start).tasks 1).pc = .returned (-1) := by
  obtain ⟨⟨hadmissible, -⟩, hfilled, hcleared, htasks⟩ :=
    ArpState.replyToFirst_spec ⟨10, 0, 0, 2⟩ ⟨10, 0, 0, 3⟩ (by decide) (by decide)
  simp only [otherReply, Along.append, List.foldl_append]
  generalize (ArpState.replyToFirst ⟨10, 0, 0, 2⟩ ⟨10, 0, 0, 3⟩).foldl
    (ArpState.step oneCard) .start = replied at hfilled hcleared htasks ⊢
  refine ⟨⟨hadmissible, ⟨ArpState.admissible_runs _ _, ArpState.admissible_runs _ _⟩,
    ArpState.admissible_runs _ _⟩, ?_⟩
  have hvain := ArpState.wakes_in_vain oneCard 1 (s := replied) 0 0
    (by rw [htasks]; rfl) hcleared (by
      intro j
      have htarget : (replied.tasks 1).targetIp = ⟨10, 0, 0, 3⟩ := by rw [htasks]; rfl
      rw [htarget, hfilled]
      by_cases hj : j = 0
      · subst j
        decide
      · rw [Function.update_of_ne hj]
        exact (by decide : zeroIp ≠ ⟨10, 0, 0, 3⟩))
  simpa only [List.foldl_append] using hvain

end GlitchedOS
