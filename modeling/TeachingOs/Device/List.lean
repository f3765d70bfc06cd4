import Mathlib.Data.List.Induction
import TeachingOs.Basic
import TeachingOs.Lib.Chain

/-!
# TeachingOs.Device.List

The list of installed drivers: `INSTALL_DEVICE` of `kern/device.h`, and
`device_print_all` of `kern/devices/devices.c`.

The link is a field of the driver itself, so that a driver that is installed
again redirects its own link to the head of the list, and the list runs in a
circle from there on.  `listed_iff`: the list is what it is for exactly as
long as no driver is installed twice.  The pointers `<name>_dev` are right in
any case.
-/

namespace TeachingOs.Device

/-! ## The code -/

/-- `struct dev_header` without the link. -/
structure DevHeader where
  name : String
  file : String
  line : Word
deriving DecidableEq, Repr

/-- `device_list`, the link in every driver's header, and the pointers
`<name>_dev`.  A driver is named by its address, a value of `D`, and the name
of a device by a value of `C`. -/
structure Devices (C D : Type) where
  deviceList : Option D
  next : D → Option D
  dev : C → D

/-- A call of `printk`, with the arguments of `PRINT_DEVICE`. -/
inductive Printk where
  | text (fmt : String)
  | device (fmt : String) (name file : String) (line : Word)
deriving DecidableEq, Repr

/-- `PRINT_DEVICE`. -/
def printDevice (dev : DevHeader) : Printk :=
  .device "  %-24s (%s:%d)\n" dev.name dev.file dev.line

section

variable {C D : Type} [DecidableEq C] [DecidableEq D]

/-- `INSTALL_DEVICE(name, own_name)`. -/
def installDevice (name : C) (ownName : D) (s : Devices C D) : Devices C D where
  dev := Function.update s.dev name ownName
  next := Function.update s.next ownName s.deviceList
  deviceList := some ownName

/-- The statics before the first `INSTALL_DEVICE`: every pointer is at the
`nulldev` of its device. -/
def Devices.start (nulldev : C → D) : Devices C D := ⟨none, fun _ => none, nulldev⟩

/-- A sequence of `INSTALL_DEVICE(name, own_name)`. -/
def installAll (nulldev : C → D) (installs : List (C × D)) : Devices C D :=
  installs.foldl (fun s i => installDevice i.1 i.2 s) (.start nulldev)

/-- `device_print_all` with `n` rounds of its loop; `none` when it goes on. -/
def devicePrintAll (header : D → DevHeader) (n : Nat) (s : Devices C D) : Option (List Printk) :=
  (followLinks s.next n s.deviceList).map fun ds =>
    .text "loaded drivers:\n" :: ds.map fun d => printDevice (header d)

/-! ## What the list is for -/

/-- The driver of the last `INSTALL_DEVICE` for `name`. -/
def lastInstalled (nulldev : C → D) (installs : List (C × D)) (name : C) : D :=
  installs.foldl (fun last i => if i.1 = name then i.2 else last) (nulldev name)

/-- `device_list` is a list without cycle of every installed driver, once,
`device_print_all` prints them and ends, and every device has the driver last
installed for it. -/
structure Listed (header : D → DevHeader) (nulldev : C → D) (installs : List (C × D))
    (s : Devices C D) : Prop where
  list : ∃ ds, Chain s.next s.deviceList ds ∧ ds.Nodup ∧ (∀ d, d ∈ ds ↔ d ∈ installs.map Prod.snd) ∧
    ∃ n, devicePrintAll header n s =
      some (.text "loaded drivers:\n" :: ds.map fun d => printDevice (header d))
  dev : ∀ name, s.dev name = lastInstalled nulldev installs name

/-! ## What a sequence does -/

variable {header : D → DevHeader} {nulldev : C → D} {installs : List (C × D)} {ds : List D}

theorem installAll_append (nulldev : C → D) (installs : List (C × D)) (i : C × D) :
    installAll nulldev (installs ++ [i]) =
      installDevice i.1 i.2 (installAll nulldev installs) := by
  simp [installAll]

/-- The pointers do not depend on the list. -/
theorem dev_installAll (nulldev : C → D) (installs : List (C × D)) (name : C) :
    (installAll nulldev installs).dev name = lastInstalled nulldev installs name := by
  induction installs using List.reverseRecOn with
  | nil => rfl
  | append_singleton installs i ih =>
      rw [installAll_append, lastInstalled, List.foldl_append]
      by_cases hi : i.1 = name
      · subst hi
        simp [installDevice]
      · rw [lastInstalled] at ih
        simp [installDevice, Function.update_of_ne (Ne.symm hi), hi, ih]

/-- **The list**: the drivers, the last one first, if there are no two
installations of one, and else no list. -/
theorem chain_installAll_iff :
    Chain (installAll nulldev installs).next (installAll nulldev installs).deviceList ds ↔
      ds = (installs.map Prod.snd).reverse ∧ (installs.map Prod.snd).Nodup := by
  induction installs using List.reverseRecOn generalizing ds with
  | nil => cases ds <;> simp [installAll, Devices.start]
  | append_singleton installs i ih =>
      rw [installAll_append]
      simp only [installDevice, chain_push_iff, ih, List.map_append, List.map_cons, List.map_nil,
        List.reverse_append, List.reverse_singleton, List.singleton_append]
      rw [List.nodup_append_comm, List.singleton_append, List.nodup_cons]
      constructor
      · rintro ⟨l, rfl, hi, rfl, hnodup⟩
        exact ⟨rfl, fun hmem => hi (List.mem_reverse.mpr hmem), hnodup⟩
      · rintro ⟨rfl, hi, hnodup⟩
        exact ⟨_, rfl, fun hmem => hi (List.mem_reverse.mp hmem), rfl, hnodup⟩

omit [DecidableEq C] [DecidableEq D] in
/-- `device_print_all` ends on a list. -/
theorem devicePrintAll_of_chain {s : Devices C D} (h : Chain s.next s.deviceList ds) :
    ∃ n, devicePrintAll header n s =
      some (.text "loaded drivers:\n" :: ds.map fun d => printDevice (header d)) := by
  obtain ⟨n, hn⟩ := exists_followLinks_iff.mpr h
  exact ⟨n, by rw [devicePrintAll, hn]; rfl⟩

/-- With a driver installed twice, it hangs. -/
theorem devicePrintAll_eq_none (h : ¬ (installs.map Prod.snd).Nodup) (n : Nat) :
    devicePrintAll header n (installAll nulldev installs) = none := by
  rw [devicePrintAll, Option.map_eq_none_iff, Option.eq_none_iff_forall_ne_some]
  intro ds hds
  exact h (chain_installAll_iff.mp (exists_followLinks_iff.mp ⟨n, hds⟩)).2

/-- **Exactly when the list is what it is for**: no driver is installed
twice. -/
theorem listed_iff (header : D → DevHeader) (nulldev : C → D) (installs : List (C × D)) :
    Listed header nulldev installs (installAll nulldev installs) ↔
      (installs.map Prod.snd).Nodup := by
  constructor
  · rintro ⟨⟨ds, hchain, -⟩, -⟩
    exact (chain_installAll_iff.mp hchain).2
  · intro hnodup
    have hchain : Chain (installAll nulldev installs).next
        (installAll nulldev installs).deviceList (installs.map Prod.snd).reverse :=
      chain_installAll_iff.mpr ⟨rfl, hnodup⟩
    refine ⟨⟨_, hchain, hchain.nodup, ?_, devicePrintAll_of_chain hchain⟩,
      dev_installAll nulldev installs⟩
    intro d
    exact List.mem_reverse

end

/-- Two terminals, both of which call `con_vt100_init` first. -/
def twoTerminals : List (String × String) :=
  [("console", "con_vt100"), ("con_vt100", "miniuart"),
    ("console", "con_vt100"), ("con_vt100", "uart2")]

theorem not_listed_twoTerminals : ¬ ∀ (header : String → DevHeader) (nulldev : String → String),
    Listed header nulldev twoTerminals (installAll nulldev twoTerminals) := by
  intro h
  obtain ⟨⟨ds, hchain, -⟩, -⟩ := h (fun name => ⟨name, "", 0⟩) fun name => name ++ "_nulldev"
  exact absurd (chain_installAll_iff.mp hchain).2 (by decide)

end TeachingOs.Device
