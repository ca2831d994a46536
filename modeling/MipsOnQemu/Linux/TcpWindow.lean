/-
# MipsOnQemu.Linux.TcpWindow -- the receive window that TCP advertises

`tcp_select_window` of `net/ipv4/tcp_output.c` keeps the window from shrinking before it clamps it to what
16 bits can say and shifts it to the right by the window scale. What the shift cuts off is lost to the peer:
after a segment that is not a multiple of the scale unit the edge the peer is told may go back
(`window_shrinks`). It does not as long as each window that is kept up is a multiple of the unit
(`window_never_shrinks`).
-/

import MipsOnQemu.Lib.Runs

namespace Linux

open List BitVec

/-- The fields of `struct tcp_sock` that make up the window. -/
structure TcpWindow where
  rcvNxt : BitVec 32
  rcvWup : BitVec 32
  rcvWnd : BitVec 32

/-- What else `__tcp_select_window` reads: `tcp_space`, `tcp_full_space`, fields of the socket, and
`tcp_memory_pressure`. -/
structure WindowInput where
  space : BitVec 32
  fullSpace : BitVec 32
  windowClamp : BitVec 32
  rcvSsthresh : BitVec 32
  rcvMss : BitVec 16
  advmss : BitVec 16
  memoryPressure : Bool

def minInt (a b : BitVec 32) : BitVec 32 := if a.slt b then a else b

def minU (a b : BitVec 32) : BitVec 32 := if a.ult b then a else b

def tcpReceiveWindow (tp : TcpWindow) : BitVec 32 :=
  let win := tp.rcvWup + tp.rcvWnd - tp.rcvNxt
  if win.slt 0#32 then 0#32 else win

/-- `__tcp_select_window`, or nothing if it divides by zero. -/
def selectRaw (wscale : Nat) (i : WindowInput) (rcvWnd : BitVec 32) : Option (BitVec 32) :=
  let fullSpace := minInt i.windowClamp i.fullSpace
  let mss := minInt (i.rcvMss.setWidth 32) fullSpace
  let low := i.space.slt (fullSpace.sdiv 2#32)
  let rcvSsthresh :=
    if low ∧ i.memoryPressure then minU i.rcvSsthresh (4#32 * i.advmss.setWidth 32) else i.rcvSsthresh
  if low ∧ i.space.slt mss then some 0#32
  else
    -- compared as unsigned numbers: a negative space is above every threshold
    let space := minU i.space rcvSsthresh
    if wscale ≠ 0 then
      let units := space.sshiftRight wscale
      some (if units <<< wscale ≠ space then (units + 1#32) <<< wscale else space)
    else if rcvWnd.sle (space - mss) ∨ space.slt rcvWnd then
      if mss = 0#32 then none else some (space.sdiv mss * mss)
    else some rcvWnd

/-- The largest window that can be said; `signed` is `sysctl_tcp_workaround_signed_windows`. -/
def maxWindow (wscale : Nat) (signed : Bool) : BitVec 32 :=
  if wscale = 0 ∧ signed then 32767#32 else 65535#32 <<< wscale

/-- `tcp_select_window`: the value for the header, and the socket. -/
def tcpSelectWindow (wscale : Nat) (signed : Bool) (tp : TcpWindow) (i : WindowInput) :
    Option (BitVec 16 × TcpWindow) :=
  (selectRaw wscale i tp.rcvWnd).map fun raw =>
    let curWin := tcpReceiveWindow tp
    let newWin := if raw.ult curWin then curWin else raw
    ((minU newWin (maxWindow wscale signed) >>> wscale).setWidth 16,
      { tp with rcvWnd := newWin, rcvWup := tp.rcvNxt })

/-! ## Runs -/

/-- A receiver, with the number of bytes that have arrived, and the right edges it has told, the last one
first. An edge is a position in the stream, counted from the first `rcv_nxt`: sequence numbers are positions
modulo 2^32. -/
structure TcpReceiver where
  tp : TcpWindow
  arrived : Nat
  told : List Nat

inductive WindowOp where
  | arrive (len : Nat)
  | select (i : WindowInput)

/-- Data arrives in order and within the window, or a window is sent. -/
def windowStep (wscale : Nat) (signed : Bool) (r : TcpReceiver) : WindowOp → Option (Unit × TcpReceiver)
  | .arrive len =>
    if len ≤ (tcpReceiveWindow r.tp).toNat then
      some ((), { r with
        tp := { r.tp with rcvNxt := r.tp.rcvNxt + BitVec.ofNat 32 len }
        arrived := r.arrived + len })
    else none
  | .select i =>
    (tcpSelectWindow wscale signed r.tp i).map fun p =>
      ((), { r with tp := p.2, told := (r.arrived + p.1.toNat * 2 ^ wscale) :: r.told })

/-- The window chosen is below 2^31, and what is left of the old one is a multiple of the scale unit, unless
the new one is no smaller. -/
def WholeUnits (wscale : Nat) (r : TcpReceiver) : WindowOp → Prop
  | .arrive _ => True
  | .select i => ∀ raw, selectRaw wscale i r.tp.rcvWnd = some raw → raw.toNat < 2 ^ 31 ∧
      (2 ^ wscale ∣ (tcpReceiveWindow r.tp).toNat ∨ (tcpReceiveWindow r.tp).toNat ≤ raw.toNat)

variable {wscale : Nat} {signed : Bool} {r : TcpReceiver} {tp : TcpWindow}

/-- The edge up to which the receiver accepts data. -/
def TcpReceiver.edge (r : TcpReceiver) : Nat := r.arrived + (tcpReceiveWindow r.tp).toNat

structure TcpReceiver.Inv (wscale : Nat) (signed : Bool) (start : BitVec 32) (r : TcpReceiver) : Prop where
  next : r.tp.rcvNxt = start + BitVec.ofNat 32 r.arrived
  sorted : r.told.Pairwise (· ≥ ·)
  accepted : ∀ e ∈ r.told, e ≤ r.edge
  sayable : ∀ e ∈ r.told, e ≤ r.arrived + (maxWindow wscale signed).toNat

theorem tcpReceiveWindow_toNat (tp : TcpWindow) : (tcpReceiveWindow tp).toNat =
    if (tp.rcvWup + tp.rcvWnd - tp.rcvNxt).toNat < 2 ^ 31 then (tp.rcvWup + tp.rcvWnd - tp.rcvNxt).toNat else 0 := by
  unfold tcpReceiveWindow
  dsimp only
  generalize tp.rcvWup + tp.rcvWnd - tp.rcvNxt = win
  rw [BitVec.slt_zero_eq_msb, msb_eq_decide]
  split <;> split <;> simp_all
  omega

theorem tcpReceiveWindow_arrive {len : Nat} (h : len ≤ (tcpReceiveWindow tp).toNat) :
    (tcpReceiveWindow { tp with rcvNxt := tp.rcvNxt + BitVec.ofNat 32 len }).toNat =
      (tcpReceiveWindow tp).toNat - len := by
  rw [tcpReceiveWindow_toNat] at h ⊢
  rw [tcpReceiveWindow_toNat]
  dsimp only
  rw [sub_add_eq_sub_sub]
  generalize tp.rcvWup + tp.rcvWnd - tp.rcvNxt = win at *
  split at h <;> split <;> bv_omega

variable {win start : BitVec 32}

theorem tcpReceiveWindow_select (tp : TcpWindow) (h : win.toNat < 2 ^ 31) :
    tcpReceiveWindow { tp with rcvWnd := win, rcvWup := tp.rcvNxt } = win := by
  apply eq_of_toNat_eq
  rw [tcpReceiveWindow_toNat]
  dsimp only
  rw [add_sub_cancel_left, if_pos h]

theorem toNat_maxWindow (hscale : wscale ≤ 14) (signed : Bool) :
    ∃ n ≤ 65535, (maxWindow wscale signed).toNat = n * 2 ^ wscale := by
  unfold maxWindow
  split
  · rename_i h
    exact ⟨32767, by decide, by simp [h.1]⟩
  · refine ⟨65535, le_rfl, ?_⟩
    rw [toNat_shiftLeft, Nat.shiftLeft_eq, Nat.mod_eq_of_lt]
    · rfl
    · calc 65535 * 2 ^ wscale ≤ 65535 * 2 ^ 14 := Nat.mul_le_mul_left _ (Nat.pow_le_pow_right (by decide) hscale)
        _ < 2 ^ 32 := by decide

theorem dvd_shiftLeft (x : BitVec 32) (hscale : wscale ≤ 14) : 2 ^ wscale ∣ (x <<< wscale).toNat := by
  rw [toNat_shiftLeft, Nat.shiftLeft_eq]
  exact (Nat.dvd_mod_iff (Nat.pow_dvd_pow 2 (by omega))).mpr (Nat.dvd_mul_left _ _)

/-- What `__tcp_select_window` chooses is a multiple of the scale unit. -/
theorem dvd_selectRaw (hscale : wscale ≤ 14) {i : WindowInput} {rcvWnd raw : BitVec 32}
    (h : selectRaw wscale i rcvWnd = some raw) : 2 ^ wscale ∣ raw.toNat := by
  by_cases hzero : wscale = 0
  · rw [hzero]
    exact one_dvd _
  unfold selectRaw at h
  dsimp only at h
  split at h
  · cases h
    exact dvd_zero _
  · generalize minU i.space _ = space at h
    cases h
    split
    · exact dvd_shiftLeft _ hscale
    · rename_i hwhole
      exact Decidable.not_not.mp hwhole ▸ dvd_shiftLeft _ hscale

theorem toNat_minU (a b : BitVec 32) : (minU a b).toNat = min a.toNat b.toNat := by
  unfold minU
  split
  · rename_i h
    exact (min_eq_left (of_decide_eq_true h).le).symm
  · rename_i h
    exact (min_eq_right (Nat.le_of_not_lt fun hlt => h (decide_eq_true hlt))).symm

/-- What is said of a window that is a multiple of the unit is all that can be said of it. -/
theorem said_eq (hscale : wscale ≤ 14) (hwin : 2 ^ wscale ∣ win.toNat) :
    ((minU win (maxWindow wscale signed) >>> wscale).setWidth 16).toNat * 2 ^ wscale =
      min win.toNat (maxWindow wscale signed).toNat := by
  obtain ⟨n, hn, hmax⟩ := toNat_maxWindow hscale signed
  obtain ⟨k, hk⟩ := hwin
  have hmin : min win.toNat (maxWindow wscale signed).toNat = min k n * 2 ^ wscale := by
    rw [hmax, hk, mul_comm, Nat.mul_min_mul_right]
  rw [toNat_setWidth, toNat_ushiftRight, toNat_minU, hmin, Nat.shiftRight_eq_div_pow,
    Nat.mul_div_cancel _ (Nat.two_pow_pos _), Nat.mod_eq_of_lt (by omega)]

theorem TcpReceiver.Inv.arrive (h : r.Inv wscale signed start) {len : Nat}
    (hlen : len ≤ (tcpReceiveWindow r.tp).toNat) : TcpReceiver.Inv wscale signed start { r with
      tp := { r.tp with rcvNxt := r.tp.rcvNxt + BitVec.ofNat 32 len }, arrived := r.arrived + len } := by
  have hwin := tcpReceiveWindow_arrive hlen
  refine ⟨?_, h.sorted, fun e he => ?_, fun e he => (h.sayable e he).trans ?_⟩
  · dsimp only
    rw [h.next, ofNat_add, add_assoc]
  · have hedge := h.accepted e he
    unfold TcpReceiver.edge at hedge ⊢
    dsimp only
    omega
  · dsimp only
    omega

/-- A window is told that is no smaller and of whole units: the edge does not go back. -/
theorem TcpReceiver.Inv.tell (h : r.Inv wscale signed start) {said : Nat}
    (hsmall : win.toNat < 2 ^ 31) (hgrow : (tcpReceiveWindow r.tp).toNat ≤ win.toNat)
    (hsaid : said = min win.toNat (maxWindow wscale signed).toNat) :
    TcpReceiver.Inv wscale signed start { r with
      tp := { r.tp with rcvWnd := win, rcvWup := r.tp.rcvNxt }, told := (r.arrived + said) :: r.told } := by
  have hwin := tcpReceiveWindow_select r.tp hsmall
  have hold : ∀ e ∈ r.told, e ≤ r.arrived + said := by
    intro e he
    have haccepted := h.accepted e he
    have hsayable := h.sayable e he
    unfold TcpReceiver.edge at haccepted
    omega
  have hall : ∀ e ∈ (r.arrived + said) :: r.told, e ≤ r.arrived + said := forall_mem_cons.mpr ⟨le_rfl, hold⟩
  refine ⟨h.next, pairwise_cons.mpr ⟨hold, h.sorted⟩, fun e he => (hall e he).trans ?_,
    fun e he => (hall e he).trans ?_⟩
  · unfold TcpReceiver.edge
    dsimp only
    rw [hwin]
    omega
  · dsimp only
    omega

theorem TcpReceiver.Inv.step (hscale : wscale ≤ 14) (h : r.Inv wscale signed start)
    {op : WindowOp} (hop : WholeUnits wscale r op) {p : Unit × TcpReceiver}
    (hp : windowStep wscale signed r op = some p) : p.2.Inv wscale signed start := by
  cases op with
  | arrive len =>
    obtain ⟨hlen, hp⟩ := Option.ite_none_right_eq_some.mp hp
    cases hp
    exact h.arrive hlen
  | select i =>
    simp only [windowStep, tcpSelectWindow, Option.map_map, Option.map_eq_some_iff, Function.comp] at hp
    obtain ⟨raw, hraw, rfl⟩ := hp
    obtain ⟨hsmall, hunits⟩ := hop raw hraw
    have hdvd := dvd_selectRaw hscale hraw
    have hcur : (tcpReceiveWindow r.tp).toNat < 2 ^ 31 := by
      rw [tcpReceiveWindow_toNat]
      split <;> omega
    dsimp only
    split
    · rename_i hless
      rw [BitVec.ult, decide_eq_true_eq] at hless
      have hwhole : 2 ^ wscale ∣ (tcpReceiveWindow r.tp).toNat := hunits.resolve_right (by omega)
      exact h.tell hcur le_rfl (said_eq hscale hwhole)
    · rename_i hmore
      rw [BitVec.ult, decide_eq_true_eq] at hmore
      exact h.tell hsmall (by omega) (said_eq hscale hdvd)

/-- **The window does not shrink**, nor go beyond what the receiver accepts, in any run that keeps to whole
units of the scale. -/
theorem window_never_shrinks (hscale : wscale ≤ 14) (signed : Bool) (tp : TcpWindow) (ops : List WindowOp)
    {q : List Unit × TcpReceiver} (hrun : Runs.run (windowStep wscale signed) ⟨tp, 0, []⟩ ops = some q)
    (hunits : Runs.Along (windowStep wscale signed) (WholeUnits wscale) ⟨tp, 0, []⟩ ops) :
    q.2.tp.rcvNxt = tp.rcvNxt + BitVec.ofNat 32 q.2.arrived ∧ q.2.told.Pairwise (· ≥ ·) ∧
      ∀ e ∈ q.2.told, e ≤ q.2.edge := by
  have hinit : TcpReceiver.Inv wscale signed tp.rcvNxt ⟨tp, 0, []⟩ :=
    ⟨(add_zero _).symm, Pairwise.nil, nofun, nofun⟩
  have hinv := Runs.run_invariant_along (fun _ _ _ h hop hp => h.step hscale hop hp) hinit hunits hrun
  exact ⟨hinv.next, hinv.sorted, hinv.accepted⟩

/-- A window of ten bytes is told; some arrive, and the buffer has no space left. -/
def fullBuffer (len : Nat) : List WindowOp :=
  let input (space : BitVec 32) : WindowInput := ⟨space, 20#32, 20#32, 20#32, 1#16, 1#16, false⟩
  [.select (input 10#32), .arrive len, .select (input 0#32)]

theorem window_never_shrinks_even :
    ∃ q, Runs.run (windowStep 1 false) ⟨⟨0#32, 0#32, 0#32⟩, 0, []⟩ (fullBuffer 2) = some q ∧
      q.2.told = [10, 10] ∧ q.2.told.Pairwise (· ≥ ·) := by
  refine ⟨_, rfl, rfl, (window_never_shrinks (show 1 ≤ 14 by decide) false ⟨0#32, 0#32, 0#32⟩
    (fullBuffer 2) rfl ⟨?_, ?_⟩).2.1⟩
  · rintro _ ⟨⟩
    decide
  rintro _ ⟨⟩
  refine ⟨trivial, ?_⟩
  rintro _ ⟨⟩
  refine ⟨?_, fun _ _ => trivial⟩
  rintro _ ⟨⟩
  decide

/-- One byte arrives, with a scale unit of two bytes: nine bytes are left of the window, of which the peer is
told eight, so that the edge goes back by one. -/
theorem window_shrinks :
    ∃ q, Runs.run (windowStep 1 false) ⟨⟨0#32, 0#32, 0#32⟩, 0, []⟩ (fullBuffer 1) = some q ∧
      q.2.told = [9, 10] ∧ ¬q.2.told.Pairwise (· ≥ ·) :=
  ⟨_, rfl, rfl, by decide⟩

end Linux
