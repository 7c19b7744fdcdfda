import Mathlib.Tactic

/-!
The transfers of `tftp.c`: the blocks that `get_block` makes, the packets of the client, and the
retransmissions of `check_tftp_listeners`.
-/
namespace Dnsmasq.Tftp

open List

/-- The block is an `unsigned int`. -/
structure Transfer where
  timeout : ℕ
  backoff : ℕ := 1
  block : BitVec 32
  blocksize : ℕ
  expansion : ℕ := 0
  offset : ℕ := 0
  optBlocksize : Bool
  optTransize : Bool
  netascii : Bool
  carrylf : Bool := false

/-- A fresh struct, when `tftp_request` has read the options of the packet. -/
def newTransfer (now blocksize : ℕ) (optBlocksize optTransize netascii : Bool) : Transfer :=
  { timeout := now + 2, block := if optBlocksize || optTransize then 0 else 1, blocksize,
    optBlocksize, optTransize, netascii }

/-- What `get_block` makes; `finished` if all of the file is acknowledged. -/
inductive Block
  | oack (blksize tsize : Option ℕ)
  | data (block : ℕ) (payload : List UInt8)
  | finished
  | failed
  deriving DecidableEq

def digits (n : ℕ) : ℕ := (Nat.toDigits 10 n).length

def Block.len : Block → ℕ
  | oack blksize tsize => 2 + blksize.elim 0 (9 + digits ·) + tsize.elim 0 (7 + digits ·)
  | data _ payload => payload.length + 4
  | _ => 0

/-- `\n` becomes CR-LF; what does not fit into the block any more is left out. The result has the
number of expansions and the new `carrylf`. -/
def mapLf (carrylf : Bool) : ℕ → Bool → List UInt8 → List UInt8 × ℕ × Bool
  | 0, _, _ | _, _, [] => ([], 0, false)
  | room + 1, first, c :: data =>
    if c = 10 ∧ ¬(first && carrylf) then
      match room with
      | 0 => ([13], 1, true)
      | room + 1 =>
        let r := mapLf carrylf room false data
        (13 :: 10 :: r.1, r.2.1 + 1, r.2.2)
    else
      let r := mapLf carrylf room false data
      (c :: r.1, r.2)

variable (file : List UInt8) (readable : Bool) (t : Transfer)

def getBlock : Block × Transfer :=
  if t.block = 0 then
    (.oack (if t.optBlocksize then some t.blocksize else none) (if t.optTransize then
      some (file.length % 2 ^ 32) else none), t)
  else if file.length < t.offset then (.finished, t)
  else if !readable then (.failed, t)
  else
    let data := (file.drop t.offset).take t.blocksize
    let r := if t.netascii then mapLf t.carrylf t.blocksize true data else (data, 0, t.carrylf)
    (.data (t.block.toNat % 2 ^ 16) r.1, { t with expansion := r.2.1, carrylf := r.2.2 })

/-- The first two numbers of a packet from the client. -/
def handleTftp (now op number : ℕ) : Transfer :=
  if op = 4 ∧ number = t.block.toNat % 2 ^ 16 then
    { t with
      timeout := now
      backoff := 0
      block := t.block + 1
      offset := t.offset + if t.block = 0 then 0 else t.blocksize - t.expansion }
  else if op = 5 then { t with timeout := now, backoff := 100 }
  else t

inductive Status
  | active
  | sent
  | failed

/-- The turn of `check_tftp_listeners` for a transfer, with what it sends. -/
def checkTransfer (now : ℕ) : List Block × Status × Transfer :=
  if now < t.timeout then ([], .active, t)
  else
    let (b, t) := getBlock file readable { t with timeout := t.timeout + 1 + 2 ^ (t.backoff / 2) }
    if b = .failed then ([b], .failed, t)
    else
      let t := { t with backoff := t.backoff + 1 }
      if 7 < t.backoff then ([], if b.len = t.blocksize + 4 then .failed else .sent, t)
      else if b.len = 0 then ([], .sent, t)
      else ([b], .active, t)

inductive Event
  | packet (now op number : ℕ)
  | check (now : ℕ) (readable : Bool)

def blocksSent : Transfer → List Event → List Block
  | _, [] => []
  | t, .packet now op number :: events => blocksSent (handleTftp t now op number) events
  | t, .check now readable :: events =>
    match checkTransfer file readable t now with
    | (blocks, .active, t) => blocks ++ blocksSent t events
    | (blocks, _, _) => blocks

/-- The first block is sent by `tftp_request`. -/
def tftpTransfer (events : List Event) : List Block :=
  let (b, t) := getBlock file readable t
  if b = .failed then [b] else b :: blocksSent file t events

/-- In octet mode, after at most `n` packets. -/
def InStep (bs n : ℕ) : Prop :=
  t.netascii = false ∧ t.blocksize = bs ∧ t.expansion = 0 ∧ t.block.toNat ≤ n + 1 ∧
    t.offset = (t.block.toNat - 1) * bs

/-- Data are the part of the file that their number stands for. -/
def Block.Part (bs : ℕ) : Block → Prop
  | data number payload =>
    ∃ k, k * bs ≤ file.length ∧ number = (k + 1) % 2 ^ 16 ∧ payload = (file.drop (k * bs)).take bs
  | _ => True

variable {file t} {bs n : ℕ}

theorem InStep.handleTftp (h : InStep t bs n) (now op number : ℕ) (hn : n + 2 < 2 ^ 32) :
    InStep (handleTftp t now op number) bs (n + 1) := by
  obtain ⟨hoctet, hsize, hexp, hbound, hoffset⟩ := h
  have hnext : (t.block + 1).toNat = t.block.toNat + 1 := by
    rw [BitVec.toNat_add]
    exact Nat.mod_eq_of_lt (by simp; omega)
  unfold Tftp.handleTftp
  split_ifs with hack hzero
  · refine ⟨hoctet, hsize, hexp, hnext.trans_le (by omega), ?_⟩
    rw [hnext, hoffset, hzero]
    simp
  · have hpos : t.block.toNat ≠ 0 := fun h0 => hzero (BitVec.toNat_inj.mp h0)
    refine ⟨hoctet, hsize, hexp, hnext.trans_le (by omega), ?_⟩
    rw [hnext, hoffset, hsize, hexp, Nat.add_sub_cancel, Nat.sub_zero, ← Nat.add_one_mul,
      Nat.sub_add_cancel (by omega)]
  -- Errors and acknowledgements of other blocks leave the block and the offset alone.
  all_goals exact ⟨hoctet, hsize, hexp, hbound.trans (Nat.le_succ _), hoffset⟩

theorem InStep.getBlock (h : InStep t bs n) (file : List UInt8) (readable : Bool) :
    InStep (getBlock file readable t).2 bs n ∧ (getBlock file readable t).1.Part file bs := by
  have ⟨hoctet, hsize, _, hbound, hoffset⟩ := h
  simp only [Tftp.getBlock, hoctet, Bool.false_eq_true, if_false]
  by_cases hzero : t.block = 0
  · rw [if_pos hzero]
    exact ⟨h, trivial⟩
  have hpos : t.block.toNat ≠ 0 := fun h0 => hzero (BitVec.toNat_inj.mp h0)
  rw [if_neg hzero]
  split_ifs
  · exact ⟨h, trivial⟩
  · exact ⟨h, trivial⟩
  refine ⟨⟨rfl, hsize, rfl, hbound, hoffset⟩,
    t.block.toNat - 1, by omega, ?_, by rw [hoffset, hsize]⟩
  rw [Nat.sub_add_cancel (by omega)]

theorem InStep.checkTransfer (h : InStep t bs n) (file : List UInt8) (readable : Bool) (now : ℕ) :
    InStep (checkTransfer file readable t now).2.2 bs n ∧
    ∀ b ∈ (checkTransfer file readable t now).1, b.Part file bs := by
  have hlater : InStep { t with timeout := t.timeout + 1 + 2 ^ (t.backoff / 2) } bs n := h
  obtain ⟨hnext, hpart⟩ := hlater.getBlock file readable
  unfold Tftp.checkTransfer
  generalize Tftp.getBlock file readable _ = r at hnext hpart
  split_ifs
  · exact ⟨h, forall_mem_nil _⟩
  dsimp only
  split_ifs
  · exact ⟨hnext, forall_mem_singleton.mpr hpart⟩
  on_goal 4 => exact ⟨hnext, forall_mem_singleton.mpr hpart⟩
  all_goals exact ⟨hnext, forall_mem_nil _⟩

theorem InStep.blocksSent {events : List Event} (h : InStep t bs n)
    (hn : n + events.length + 1 < 2 ^ 32) : ∀ b ∈ blocksSent file t events, b.Part file bs := by
  induction events generalizing t n with
  | nil => exact forall_mem_nil _
  | cons e events ih =>
    rw [length_cons] at hn
    cases e with
    | packet now op number => exact ih (h.handleTftp now op number (by omega)) (by omega)
    | check now readable =>
      obtain ⟨hnext, hpart⟩ := h.checkTransfer file readable now
      rw [Tftp.blocksSent]
      generalize Tftp.checkTransfer file readable t now = r at hnext hpart
      obtain ⟨blocks, status, t'⟩ := r
      cases status with
      | active => exact forall_mem_append.mpr ⟨hpart, ih hnext (by omega)⟩
      | sent | failed => exact hpart

/-- In octet mode, whatever packets come and whenever the transfer is looked at: as long as the
numbers of the blocks do not wrap round, every block that is sent, for the first time or again,
carries its part of the file. -/
theorem tftpTransfer_octet (now : ℕ) (optBlocksize optTransize : Bool) {events : List Event}
    (hn : events.length + 1 < 2 ^ 32) :
    ∀ b ∈ tftpTransfer file readable (newTransfer now bs optBlocksize optTransize false) events,
      b.Part file bs := by
  have hstart : InStep (newTransfer now bs optBlocksize optTransize false) bs 0 := by
    cases optBlocksize <;> cases optTransize <;> simp [InStep, newTransfer]
  obtain ⟨hnext, hpart⟩ := hstart.getBlock file readable
  unfold tftpTransfer
  generalize Tftp.getBlock file readable _ = r at hnext hpart
  dsimp only
  split_ifs
  · exact forall_mem_singleton.mpr hpart
  · exact forall_mem_cons.mpr ⟨hpart, hnext.blocksSent (by omega)⟩

/-- With an acknowledgement that comes twice, and a retransmission. -/
theorem tftpTransfer_octet_twice :
    let sent := tftpTransfer [1, 2, 3] true (newTransfer 0 2 false false false)
      [.packet 1 4 1, .check 1 true, .packet 1 4 1, .check 3 true]
    sent = [.data 1 [1, 2], .data 2 [3], .data 2 [3]] ∧ ∀ b ∈ sent, b.Part [1, 2, 3] 2 :=
  ⟨by decide, tftpTransfer_octet true 0 false false (by decide)⟩

end Dnsmasq.Tftp
