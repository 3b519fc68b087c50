import Iot7688.SpiFlash
import Iot7688.TftpDownload

/-!
Entries 2 and 9 of the boot menu of board_init_r: a file is loaded by TFTP and
written to the flash. Afterwards the kernel is started or the board is reset,
which writes nothing. NetLoop runs with a server of the kind of the transfers
before; the addresses typed in are in the board data, the file name is given.
-/
namespace Iot7688.BootMenu

open Lib Net SpiFlash Relation

inductive Selection
  | loadLinuxWriteFlash
  | loadBootWriteFlash
deriving DecidableEq

/-- CFG_KERN_ADDR-CFG_FLASH_BASE, and 0 for the boot loader. -/
def Selection.offs : Selection → ℕ
  | .loadLinuxWriteFlash => cfgBootloaderSize + cfgConfigSize + cfgFactorySize
  | .loadBootWriteFlash => 0

/-- The value of a character for which isxdigit holds. -/
def xdigit (c : Byte) : Option ℕ :=
  if 48 ≤ c ∧ c ≤ 57 then some (c.toNat - 48)
  else if 65 ≤ c ∧ c ≤ 70 then some (c.toNat - 55)
  else if 97 ≤ c ∧ c ≤ 102 then some (c.toNat - 87)
  else none

def digitsValue (base result : ℕ) : List Byte → ℕ
  | [] => result
  | c :: rest =>
    match xdigit c with
    | some value =>
      if value < base then digitsValue base ((result * base + value) % 2 ^ 32) rest else result
    | none => result

def simpleStrtoul (cp : List Byte) (base : ℕ) : ℕ :=
  if cp.head? = some 48 then
    let cp := cp.tail
    if cp.head? = some 120 ∧ (cp.tail.head?.bind xdigit).isSome then digitsValue 16 0 cp.tail
    else digitsValue (if base = 0 then 8 else base) 0 cp
  else digitsValue (if base = 0 then 10 else base) 0 cp

/-- A file name up to a quotation mark, with its NUL in size bytes. -/
def copyFilename (src : List Byte) (size : ℕ) : List Byte :=
  if src.head? = some 34 then (src.tail.takeWhile (· != 34)).take (size - 2)
  else (src.takeWhile (· != 34)).take (size - 1)

/-- argv[1] as tftp_config sets it. -/
def tftpConfigAddr : Selection → List Byte
  | .loadLinuxWriteFlash => text "0x80100000"
  | .loadBootWriteFlash => text "0x80100000"

/-- A call of NetLoop, with the state before its last turn and the result. -/
inductive NetLoop (b : Board) (run : Sys → Sys → Prop) (s : NetSt) :
    Option Sys → ℤ → NetSt → Prop
  | unready (clock : ℕ) (ready : Bool) (client : NetSt)
      (hstart : netLoopStart .tftp b clock ready s = (false, client)) :
      NetLoop b run s none (-1) client
  | done (clock port : ℕ) (oack ctrlc arpExpired timeExpired : Bool) (client client' : NetSt)
      (last : Sys) (rc : ℤ) (hstart : netLoopStart .tftp b clock true s = (true, client))
      (hrun : ReflTransGen run (Sys.requested client port oack) last)
      (hend : turnEnd ctrlc arpExpired timeExpired last.client = (.ret rc, client')) :
      NetLoop b run s (some last) rc client'

/-- netboot_common with an address and a file name, and without autostart. -/
inductive NetbootCommon (b : Board) (run : Sys → Sys → Prop) (addr file : List Byte)
    (s : NetSt) : Option Sys → ℕ → NetSt → Prop
  | call (last : Option Sys) (size : ℤ) (s' : NetSt)
      (hloop : NetLoop b run
        { s with loadAddr := simpleStrtoul addr 16, bootFile := copyFilename file 128 } last size s') :
      NetbootCommon b run addr file s last (if size < 0 then 1 else 0) s'

/-- The bytes from an address on. -/
def image (s : NetSt) (addr : ℕ) : Mem := fun i => s.mem ((addr + i) % 2 ^ 32)

/-- What comes after do_tftpb. -/
def writeFlash (k : Controller) (c : ChipInfo) (sel : Selection) (s : NetSt) (flash : Flash) :
    Flash :=
  let loadAddress := simpleStrtoul (tftpConfigAddr sel) 16
  match sel with
  | .loadLinuxWriteFlash =>
    (raspiEraseWrite k c flash (image s loadAddress) sel.offs (toInt s.xferSize)).2
  | .loadBootWriteFlash =>
    if s.xferSize > cfgBootloaderSize then flash
    else (raspiEraseWrite k c flash (image s loadAddress) sel.offs (toInt s.xferSize)).2

/-- How a selection ends: refused at the question, or with the result of NetLoop. -/
inductive Ending
  | terminated
  | unready
  | returned (last : Sys)

def Ending.ofLast : Option Sys → Ending
  | none => .unready
  | some last => .returned last

/-- A selection, with the answer to the question. The result of do_tftpb is not
looked at. -/
inductive Select (k : Controller) (c : ChipInfo) (b : Board) (run : Sys → Sys → Prop)
    (sel : Selection) (confirm : Byte) (file : List Byte) (s : NetSt) (flash : Flash) :
    Ending → NetSt → Flash → Prop
  | terminated (hconfirm : confirm ≠ 121 ∧ confirm ≠ 89) :
      Select k c b run sel confirm file s flash .terminated s flash
  | loaded (last : Option Sys) (rcode : ℕ) (s' : NetSt) (hconfirm : confirm = 121 ∨ confirm = 89)
      (hload : NetbootCommon b run (tftpConfigAddr sel) file s last rcode s') :
      Select k c b run sel confirm file s flash (.ofLast last) s' (writeFlash k c sel s' flash)

/-- What a selection shall do: write the complete file, or nothing. -/
def WritesComplete (k : Controller) (c : ChipInfo) (f : File) (sel : Selection) (flash : Flash)
    (ending : Ending) (s' : NetSt) (flash' : Flash) : Prop :=
  match ending with
  | .returned _ =>
    if s'.netState = .success then
      Stored f s' f.size ∧
        (flash' = (raspiEraseWrite k c flash (image s' s'.loadAddr) sel.offs (toInt f.size)).2 ∨
          sel = .loadBootWriteFlash ∧ cfgBootloaderSize < f.size ∧ flash' = flash)
    else flash' = flash
  | _ => flash' = flash

/-- A state reached from the last request for the file with n blocks stored since. -/
inductive SinceRequest (f : File) (b : Board) : ℕ → Sys → Prop
  | request (clock port : ℕ) (oack : Bool) (s client : NetSt)
      (hrestart : netRestart .tftp b clock s = (true, client)) :
      SinceRequest f b 0 (Sys.requested client port oack)
  | other (n : ℕ) (e : Event) (s s' : Sys) (h : SinceRequest f b n s) (hstep : Step f b e s s')
      (hdata : e ≠ .data) (hrestart : e ≠ .restart) : SinceRequest f b n s'
  | ignored (n : ℕ) (s s' : Sys) (h : SinceRequest f b n s) (hstep : Step f b .data s s')
      (hold : s.client.packetHandler ≠ .tftp ∨ s.cur = n) (hzero : ¬RepeatsZero s) :
      SinceRequest f b n s'
  | block (n : ℕ) (s s' : Sys) (h : SinceRequest f b n s) (hstep : Step f b .data s s')
      (hhandler : s.client.packetHandler = .tftp) (hcur : s.cur = n + 1) :
      SinceRequest f b (n + 1) s'

/-- So many bytes are not written: none, too many for a boot loader or for the chip. -/
def NotWritten (c : ChipInfo) (sel : Selection) (n : ℕ) : Prop :=
  n = 0 ∨ sel = .loadBootWriteFlash ∧ cfgBootloaderSize < n ∨
    (((c.size : ℤ) - (cfgBootloaderSize + cfgConfigSize + cfgFactorySize)) % 2 ^ 32).toNat < n

/-- A selection that does not succeed ends with nothing to write. -/
def NothingLeft (c : ChipInfo) (f : File) (b : Board) (sel : Selection) (s s' : NetSt) :
    Ending → Prop
  | .terminated => True
  | .unready => NotWritten c sel s.xferSize
  | .returned last => s'.netState ≠ .success →
      ∃ n, SinceRequest f b n last ∧ NotWritten c sel (min f.size (n * tftpBlockSize))

theorem toInt_word {n : ℕ} (hn : n < 2 ^ 32) : (toInt n % 2 ^ 32).toNat = n := by
  unfold toInt
  split
  · omega
  · omega

/-- Nothing is erased for no bytes, or for too many. -/
theorem raspiEraseWrite_nothing (k : Controller) (c : ChipInfo) (flash : Flash) (buf : Mem)
    (offs : ℕ) {n : ℕ} (hn : n < 2 ^ 32) (hnothing : n = 0 ∨
      (((c.size : ℤ) - (cfgBootloaderSize + cfgConfigSize + cfgFactorySize)) % 2 ^ 32).toNat < n) :
    (raspiEraseWrite k c flash buf offs (toInt n)).2 = flash := by
  unfold raspiEraseWrite
  rw [toInt_word hn]
  split
  · rfl
  · rename_i hfits
    have hzero : n = 0 := hnothing.resolve_right hfits
    rw [hzero, show (toInt 0).toNat = 0 from rfl, eraseWriteLoop, if_pos rfl]

theorem writeFlash_notWritten (k : Controller) (c : ChipInfo) (sel : Selection) {s : NetSt}
    (flash : Flash) (hsize : s.xferSize < 2 ^ 32) (hnot : NotWritten c sel s.xferSize) :
    writeFlash k c sel s flash = flash := by
  rcases hnot with hzero | ⟨hboot, hlarge⟩ | hlarge
  · cases sel with
    | loadLinuxWriteFlash => exact raspiEraseWrite_nothing k c flash _ _ hsize (Or.inl hzero)
    | loadBootWriteFlash =>
      refine (if_neg ?_).trans (raspiEraseWrite_nothing k c flash _ _ hsize (Or.inl hzero))
      omega
  · subst hboot
    exact if_pos hlarge
  · cases sel with
    | loadLinuxWriteFlash => exact raspiEraseWrite_nothing k c flash _ _ hsize (Or.inr hlarge)
    | loadBootWriteFlash =>
      unfold writeFlash
      dsimp only
      split
      · rfl
      · exact raspiEraseWrite_nothing k c flash _ _ hsize (Or.inr hlarge)

theorem sinceRequest_inv {f : File} {b : Board} {n : ℕ} {s : Sys} (hsize : f.size < 2 ^ 32)
    (h : SinceRequest f b n s) : Inv f s n := by
  induction h with
  | request clock port oack s client hrestart =>
    exact inv_requested (netRestart_requested hrestart) port oack
  | other n e s s' _ hstep hdata hrestart ih => exact inv_step_other ih hstep hdata hrestart
  | ignored n s s' _ hstep hold hzero ih =>
    cases hstep with
    | data _ buf pkt hcur hbytes => exact inv_ignored ih hcur hold hzero hbytes
  | block n s s' _ hstep hhandler hcur ih =>
    cases hstep with
    | data _ buf pkt _ hbytes => exact inv_block hsize ih hhandler hcur hbytes

/-- What the last turn leaves as it was before it. -/
theorem NetLoop.last {b : Board} {run : Sys → Sys → Prop} {s s' : NetSt} {last : Sys}
    {rc : ℤ} (h : NetLoop b run s (some last) rc s') : Quiet last.client s' := by
  cases h with
  | done clock port oack ctrlc arpExpired timeExpired client _ _ _ hstart hrun hend =>
    have hq := turnEnd_quiet ctrlc arpExpired timeExpired last.client
    rw [hend] at hq
    exact hq

theorem NetLoop.orderly {f : File} {b : Board} {s s' : NetSt} {last : Sys} {rc : ℤ}
    (hsize : f.size < 2 ^ 32) (h : NetLoop b (Orderly f b) s (some last) rc s') :
    (∃ a, Inv f last a) ∧ last.client.loadAddr = s.loadAddr := by
  cases h with
  | done clock port oack ctrlc arpExpired timeExpired client _ _ _ hstart hrun hend =>
    have hreq := netLoopStart_requested hstart
    have hinv : Inv f _ 0 := inv_requested hreq port oack
    exact ⟨orderly_inv hsize hinv hrun, (orderly_loadAddr hsize hinv hrun).trans hreq.loadAddr⟩

theorem NetbootCommon.loop {b : Board} {run : Sys → Sys → Prop} {addr file : List Byte}
    {s s' : NetSt} {last : Option Sys} {rcode : ℕ}
    (h : NetbootCommon b run addr file s last rcode s') :
    ∃ size, NetLoop b run
      { s with loadAddr := simpleStrtoul addr 16, bootFile := copyFilename file 128 } last size s' := by
  cases h with
  | call size _ hloop => exact ⟨_, hloop⟩

theorem netLoopStart_unready {b : Board} {clock : ℕ} {ready : Bool} {s s' : NetSt}
    (h : netLoopStart .tftp b clock ready s = (false, s')) : s'.xferSize = s.xferSize := by
  unfold netLoopStart netRestart at h
  dsimp only at h
  split at h
  · split at h
    · exact absurd (Prod.mk.inj h).1 (by decide)
    · rw [← (Prod.mk.inj h).2]
  · rw [← (Prod.mk.inj h).2]

/-- A transfer that ended with success is written with the length of the file. -/
theorem writeFlash_complete (k : Controller) (c : ChipInfo) (f : File) (sel : Selection)
    (flash : Flash) {s : NetSt} (hload : s.loadAddr = simpleStrtoul (tftpConfigAddr sel) 16)
    (hsize : s.xferSize = f.size) :
    writeFlash k c sel s flash =
        (raspiEraseWrite k c flash (image s s.loadAddr) sel.offs (toInt f.size)).2 ∨
      sel = .loadBootWriteFlash ∧ cfgBootloaderSize < f.size ∧ writeFlash k c sel s flash = flash := by
  rw [hload, ← hsize]
  cases sel with
  | loadLinuxWriteFlash => exact Or.inl rfl
  | loadBootWriteFlash =>
    by_cases hlarge : s.xferSize > cfgBootloaderSize
    · exact Or.inr ⟨rfl, hlarge, if_pos hlarge⟩
    · exact Or.inl (if_neg hlarge)

/-- A selection writes a complete file or nothing, if a transfer that fails has
left nothing that could be written. -/
theorem select_writes_complete (k : Controller) (c : ChipInfo) (f : File) (hsize : f.size < 2 ^ 32)
    (b : Board) (sel : Selection) (confirm : Byte) (file : List Byte) (s : NetSt)
    (hword : s.xferSize < 2 ^ 32) (flash : Flash) (ending : Ending) (s' : NetSt) (flash' : Flash)
    (hselect : Select k c b (Orderly f b) sel confirm file s flash ending s' flash')
    (hleft : NothingLeft c f b sel s s' ending) :
    WritesComplete k c f sel flash ending s' flash' := by
  cases hselect with
  | terminated => rfl
  | loaded last rcode _ _ hload =>
    obtain ⟨size, hloop⟩ := hload.loop
    cases last with
    | none =>
      cases hloop with
      | unready clock ready _ hstart =>
        have hsame := netLoopStart_unready hstart
        exact writeFlash_notWritten k c sel flash (hsame ▸ hword) (hsame ▸ hleft)
    | some last =>
      have hq := hloop.last
      obtain ⟨⟨a, hinv⟩, hload⟩ := hloop.orderly hsize
      show if s'.netState = .success then _ else _
      split
      · rename_i hsucc
        obtain ⟨hstored, hxfer⟩ := hinv.success (hq.success hsucc)
        constructor
        · intro i hi
          rw [hq.mem, hq.loadAddr]
          exact hstored i hi
        · exact writeFlash_complete k c f sel flash (hq.loadAddr.trans hload)
            (hq.xferSize.trans hxfer)
      · rename_i hfail
        obtain ⟨n, hsince, hnot⟩ := hleft hfail
        have hxfer := hq.xferSize.trans (sinceRequest_inv hsize hsince).size
        refine writeFlash_notWritten k c sel flash ?_ (hxfer ▸ hnot)
        rw [hxfer]
        exact lt_of_le_of_lt (min_le_left _ _) hsize

/-- An erased flash. -/
def blankFlash : Flash := ⟨⟨fun _ => 0xff, false, 0⟩, []⟩

theorem tftpConfigAddr_value (sel : Selection) :
    simpleStrtoul (tftpConfigAddr sel) 16 = 0x80100000 := by
  cases sel <;> decide

theorem boot_loaded : { NetSt.boot with
    loadAddr := simpleStrtoul (tftpConfigAddr .loadLinuxWriteFlash) 16
    bootFile := copyFilename [] 128 } = NetSt.boot := rfl

theorem turnEnd_success {s : NetSt} (h : s.netState = .success) :
    turnEnd false false false s = (.ret (toInt s.xferSize), s) := by
  have hidle : arpTimeoutCheck false s = s := by
    unfold arpTimeoutCheck
    split <;> rfl
  simp [turnEnd, hidle, h]

theorem select_linux {run : Sys → Sys → Prop} {last : Sys} {rc : ℤ} {s' : NetSt}
    (hloop : NetLoop Board.local run NetSt.boot (some last) rc s') :
    Select rt6855A chipsData[6] Board.local run .loadLinuxWriteFlash 121 [] NetSt.boot blankFlash
      (.returned last) s' (writeFlash rt6855A chipsData[6] .loadLinuxWriteFlash s' blankFlash) := by
  rw [← boot_loaded] at hloop
  exact Select.loaded (some last) _ s' (Or.inl rfl) (NetbootCommon.call _ _ _ hloop)

/-- A kernel of three bytes. -/
theorem select_writes_complete_small : ∃ last s' flash', s'.netState = .success ∧
    WritesComplete rt6855A chipsData[6] threeBytes .loadLinuxWriteFlash blankFlash
      (.returned last) s' flash' := by
  obtain ⟨last, hrun, hsucc⟩ := threeBytes_run
  have hloop := NetLoop.done 0 2000 false false false false localStart last.client last _
    localStart_eq hrun (turnEnd_success hsucc)
  exact ⟨last, last.client, _, hsucc, select_writes_complete rt6855A chipsData[6] threeBytes
    (by decide) Board.local .loadLinuxWriteFlash 121 [] NetSt.boot (by decide) blankFlash _ _ _
    (select_linux hloop) (fun h => absurd hsucc h)⟩

/-- A file of two full blocks and an empty one. -/
def twoBlocks : File := ⟨1024, fun _ => 0⟩

/-- Ctrl-C after the first block of a kernel: the block is written. -/
theorem interrupted_kernel_written : ∃ last s' flash',
    Select rt6855A chipsData[6] Board.local (fun s s' => ∃ e, Step twoBlocks Board.local e s s')
        .loadLinuxWriteFlash 121 [] NetSt.boot blankFlash (.returned last) s' flash' ∧
      s'.netState = .loop ∧ flash'.nor.mem 0x50000 ≠ blankFlash.nor.mem 0x50000 ∧
      ¬WritesComplete rt6855A chipsData[6] twoBlocks .loadLinuxWriteFlash blankFlash
        (.returned last) s' flash' := by
  obtain ⟨last, hrun, h⟩ := linked_run (show twoBlocks.size < 2 ^ 32 by decide)
    (show 0 + 1 < twoBlocks.blocks by decide)
  have hall : ReflTransGen (fun s s' => ∃ e, Step twoBlocks Board.local e s s')
      (Sys.requested localStart 2000 false) last :=
    ReflTransGen.mono (fun _ _ ⟨e, hstep, _⟩ => ⟨e, hstep⟩) _ _ hrun
  have hend : turnEnd true false false last.client = (.ret (-1), last.client) := rfl
  have hloop := NetLoop.done 0 2000 false true false false localStart last.client last _
    localStart_eq hall hend
  have hxfer : last.client.xferSize = 512 := h.inv.size
  have hload : last.client.loadAddr = 0x80100000 :=
    orderly_loadAddr (by decide) (inv_requested (netLoopStart_requested localStart_eq) 2000 false)
      hrun
  have hret := raspiEraseWrite_ret rt6855A chipsData[6] blankFlash (image last.client 0x80100000)
    0x50000 512 rfl rfl (by decide) (by decide)
  have hmem := raspiEraseWrite_mem rt6855A chipsData[6] blankFlash _ 0x50000 (512 : ℕ) rfl
    (by decide) (by decide) hret
  have hchanged : (writeFlash rt6855A chipsData[6] .loadLinuxWriteFlash last.client
      blankFlash).nor.mem 0x50000 = 0 := by
    have hword : toInt 512 = (512 : ℕ) := rfl
    have hoffs : Selection.loadLinuxWriteFlash.offs = 0x50000 := rfl
    have hfirst := h.receiving.stored 0 (by decide)
    rw [hload] at hfirst
    unfold writeFlash
    dsimp only
    rw [hxfer, tftpConfigAddr_value, hword, hoffs, hmem]
    exact (Mem.copy_inside blankFlash.nor.mem _ (show 0 < 512 by decide)).trans hfirst
  have hdiffer : (writeFlash rt6855A chipsData[6] .loadLinuxWriteFlash last.client
      blankFlash).nor.mem 0x50000 ≠ blankFlash.nor.mem 0x50000 := by
    rw [hchanged]
    decide
  refine ⟨last, last.client, _, select_linux hloop, h.netState, hdiffer, fun hw => ?_⟩
  have hsame := (if_neg (by rw [h.netState]; decide)).mp hw
  exact hdiffer (congrArg (fun flash : Flash => flash.nor.mem 0x50000) hsame)

end Iot7688.BootMenu
