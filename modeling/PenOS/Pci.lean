import PenOS.Lib.Word
import Mathlib.Data.List.Find

/-!
# The PCI bus (`src/drivers/pci.c`)

`pci_init` asks the 32 devices of bus 0 for their registers and lists those that answer.
-/

namespace PenOS

/-- The registers behind the bridge, by bus, device, function and number. -/
abbrev PciBus : Type := ℕ → ℕ → ℕ → ℕ → UInt32

/-- What the bridge delivers at `PCI_CONFIG_DATA` for the word at `PCI_CONFIG_ADDRESS`. -/
def PciBus.configData (hw : PciBus) (address : ℕ) : ℕ :=
  if address / 2147483648 % 2 = 0 then 0xFFFFFFFF
  else (hw (address / 65536 % 256) (address / 2048 % 32) (address / 256 % 8)
    (address / 4 % 64)).toNat

/-- `pci_read_config` -/
def pciReadConfig (hw : PciBus) (bus device func offset : ℕ) : ℕ :=
  hw.configData (1 <<< 31 ||| bus <<< 16 ||| device <<< 11 ||| func <<< 8 ||| offset &&& 0xFC)

/-- `pci_device_t` -/
structure PciEntry where
  (bus device function vendorId deviceId subsystemId classCode subclass bar0 : ℕ)

/-- The entry that `pci_init` fills in for a device. -/
def pciEntry (hw : PciBus) (device : ℕ) : PciEntry :=
  let vendorDevice := pciReadConfig hw 0 device 0 0x00
  let classReg := pciReadConfig hw 0 device 0 0x08
  { bus := 0
    device := device
    function := 0
    vendorId := vendorDevice &&& 0xFFFF
    deviceId := (vendorDevice >>> 16) &&& 0xFFFF
    classCode := (classReg >>> 24) &&& 0xFF
    subclass := (classReg >>> 16) &&& 0xFF
    bar0 := pciReadConfig hw 0 device 0 0x10
    subsystemId := (pciReadConfig hw 0 device 0 0x2C >>> 16) &&& 0xFFFF }

/-- The loop of `pci_init` over the devices left, with the table so far. -/
def pciScan (hw : PciBus) : List ℕ → List PciEntry → List PciEntry
  | [], table => table
  | device :: rest, table =>
    if pciReadConfig hw 0 device 0 0x00 &&& 0xFFFF = 0xFFFF then pciScan hw rest table
    else if 32 ≤ table.length then table
    else pciScan hw rest (table ++ [pciEntry hw device])

/-- `pci_init` -/
def pciInit (hw : PciBus) : List PciEntry := pciScan hw (List.range 32) []

/-- `pci_find_virtio_device` -/
def pciFindVirtioDevice (table : List PciEntry) (deviceId : ℕ) : Option PciEntry :=
  table.find? fun d => d.vendorId = 0x1AF4 ∧ d.deviceId = deviceId

/-- `pci_find_ahci` -/
def pciFindAhci (hw : PciBus) (table : List PciEntry) : Option PciEntry :=
  table.find? fun d => d.classCode = 0x01 ∧ d.subclass = 0x06 ∧
    (pciReadConfig hw d.bus d.device d.function 0x08 >>> 8) &&& 0xFF = 0x01

variable {hw : PciBus} {device n o : ℕ}

/-- **The bridge finds the register that was asked for.** -/
theorem pciReadConfig_eq (hd : device < 32) (hn : n < 64) (ho : o = 4 * n) :
    pciReadConfig hw 0 device 0 o = (hw 0 device 0 n).toNat := by
  have hmask : 4 * n &&& 0xFC = 4 * n := by
    clear ho
    revert n
    decide +kernel
  have hor : ∀ {a b : ℕ} (i : ℕ), b < 2 ^ i → a <<< i ||| b = a * 2 ^ i + b := by
    intro a b i hlt
    rw [← Nat.shiftLeft_add_eq_or_of_lt hlt, Nat.shiftLeft_eq]
  rw [pciReadConfig, ho, hmask, Nat.or_assoc, Nat.or_assoc, Nat.or_assoc, hor 8 (by omega),
    hor 11 (by omega), hor 16 (by omega), hor 31 (by omega), PciBus.configData, if_neg (by omega)]
  congr 2 <;> omega

/-- A device answers: its vendor is not `0xFFFF`. -/
def PciBus.present (hw : PciBus) (device : ℕ) : Bool := (hw 0 device 0 0).toNat % 65536 ≠ 65535

-- there are no more devices than entries, so the test of the table's length never fails
theorem pciScan_eq (l : List ℕ) (hl : ∀ d ∈ l, d < 32) : ∀ table : List PciEntry,
    table.length + l.length ≤ 32 →
      pciScan hw l table = table ++ (l.filter hw.present).map (pciEntry hw) := by
  induction l with
  | nil => simp [pciScan]
  | cons d l ih =>
    intro table hlen
    rw [List.length_cons] at hlen
    have hrest := ih fun x hx => hl x (List.mem_cons_of_mem d hx)
    have hid : pciReadConfig hw 0 d 0 0 &&& 0xFFFF = (hw 0 d 0 0).toNat % 65536 :=
      pciReadConfig_eq (n := 0) (hl d List.mem_cons_self) (by omega) rfl ▸ and_low _ 16
    rw [pciScan, hid]
    by_cases hp : (hw 0 d 0 0).toNat % 65536 = 65535
    · rw [if_pos hp, hrest table (by omega)]
      simp [PciBus.present, hp]
    · rw [if_neg hp, if_neg (by omega), hrest _ (by simp; omega)]
      simp [PciBus.present, hp]

/-- **The table is complete**: `pci_init` lists the devices of bus 0 that answer, in order, and the
two searches find the first device with the registers in question. -/
theorem pci_table_complete (hw : PciBus) (deviceId : ℕ) :
    pciInit hw = ((List.range 32).filter hw.present).map (pciEntry hw) ∧
    pciFindVirtioDevice (pciInit hw) deviceId = ((List.range 32).find? fun d =>
      (hw 0 d 0 0).toNat = deviceId * 65536 + 0x1AF4).map (pciEntry hw) ∧
    pciFindAhci hw (pciInit hw) = ((List.range 32).find? fun d =>
      hw.present d ∧ (hw 0 d 0 2).toNat / 256 = 0x010601).map (pciEntry hw) := by
  have htable := @pciScan_eq hw (List.range 32) (by simp) [] (by simp)
  have hfind : ∀ {p : PciEntry → Bool} {q : ℕ → Bool},
      (∀ d < 32, hw.present d ∧ p (pciEntry hw d) ↔ q d) →
      (pciInit hw).find? p = ((List.range 32).find? q).map (pciEntry hw) := by
    intro p q h
    rw [pciInit, htable, List.nil_append, List.find?_map, List.find?_filter]
    refine congrArg _ (List.find?_congr fun d hd => ?_)
    rw [Bool.eq_iff_iff, decide_eq_true_iff]
    exact h d (List.mem_range.mp hd)
  have hword : ∀ x : ℕ, x &&& 0xFFFF = x % 65536 := fun x => and_low x 16
  have hbyte : ∀ x : ℕ, x &&& 0xFF = x % 256 := fun x => and_low x 8
  refine ⟨htable, hfind fun d hd => ?_, hfind fun d hd => ?_⟩
  · have hlt : (hw 0 d 0 0).toNat < 4294967296 := (hw 0 d 0 0).toNat_lt
    simp only [pciEntry, PciBus.present, pciReadConfig_eq (n := 0) hd (by omega) rfl, hword,
      Nat.shiftRight_eq_div_pow, decide_eq_true_iff]
    omega
  · have hlt : (hw 0 d 0 2).toNat < 4294967296 := (hw 0 d 0 2).toNat_lt
    simp only [pciEntry, PciBus.present, pciReadConfig_eq (n := 2) hd (by omega) rfl, hbyte,
      Nat.shiftRight_eq_div_pow, decide_eq_true_iff]
    omega

end PenOS
