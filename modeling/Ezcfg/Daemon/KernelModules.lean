import Ezcfg.Foundation.Dependencies
import Ezcfg.Foundation.TextCuts
import Ezcfg.Http.Handle
import Ezcfg.Util.FileLines

/-!
# Kernel modules

`utils_install_kernel_module` looks for the module in /proc/modules, installs what the table
`mod_depends` lists for it, each list from the front, and then the module.
`utils_remove_kernel_module` removes the module and then what the table lists for it, each list from
the back. Both call themselves; the depth of the calls is bounded.

The kernel is a list of loaded modules, the last one first. It loads a module whose needs are
loaded, and unloads one that no loaded module needs. Names are texts without zero bytes, and memory
is always granted.
-/

namespace Ezcfg.Daemon

open Foundation Foundation.TextCuts Foundation.Dependencies
open Http (ascii)
open Util (fileGetLine)

/-- The name of a module. -/
abbrev Name := List UInt8

/-- `mod_dep_t` -/
structure ModDep where
  name : Name
  list : List UInt8

/-- An entry of the table. -/
def modDep (name list : String) : ModDep := ⟨ascii name, ascii list⟩

/-- `mod_depends` -/
def modDepends : List ModDep :=
  [modDep "aes_i586" "aes_generic",
    modDep "ahci" "libahci",
    modDep "arc4" "crypto_algapi",
    modDep "ath5k" "ath,cfg80211,compat,mac80211",
    modDep "authenc" "aead,crypto_algapi,crypto_blkcipher,crypto_hash",
    modDep "cfg80211" "compat",
    modDep "crc32c" "crypto_hash",
    modDep "cryptomgr" "aead,crypto_algapi",
    modDep "crypto_blkcipher" "crypto_algapi",
    modDep "crypto_hash" "crypto_algapi",
    modDep "crypto_null" "crypto_algapi,crypto_blkcipher,crypto_hash",
    modDep "des_generic" "crypto_algapi",
    modDep "ehci-hcd" "usbcore",
    modDep "fat" "nls_cp437,nls_iso8859-1",
    modDep "fcrypt" "crypto_algapi",
    modDep "ohci-hcd" "nls_base,usbcore",
    modDep "pcmcia" "pcmcia_core",
    modDep "mac80211" "cfg80211,compat",
    modDep "md4" "crypto_hash",
    modDep "md5" "crypto_hash",
    modDep "lib80211_crypt_ccmp" "lib80211",
    modDep "lib80211_crypt_tkip" "lib80211",
    modDep "lib80211_crypt_wep" "lib80211",
    modDep "michael_mic" "crypto_hash",
    modDep "nls_cp437" "nls_base",
    modDep "nls_iso8859-1" "nls_base",
    modDep "rsrc_nonstatic" "pcmcia_core",
    modDep "rt2x00lib" "cfg80211,compat,compat_firmware_class,mac80211",
    modDep "rt2x00usb" "mac80211,rt2x00lib,usbcore",
    modDep "rt73usb" "crc-itu-t,rt2x00lib,rt2x00usb",
    modDep "uhci-hcd" "usbcore",
    modDep "usbcore" "usb-common,nls_base",
    modDep "usbhid" "usbcore",
    modDep "usb-storage" "usbcore",
    modDep "vfat" "nls_base,nls_cp437,nls_iso8859-1,fat",
    modDep "yenta_socket" "pcmcia_core,rsrc_nonstatic"]

/-- "," -/
abbrev comma : UInt8 := 0x2c

/-- " " -/
abbrev space : UInt8 := 0x20

/-- "#" -/
def hashSign : CString := .single 0x23 (by decide)

/-- `LINE_TAIL_STRING` -/
def lineTailString : CString := ⟨[0x20, 0x09, 0x0d, 0x0a], by decide, by decide⟩

/-- The size of the buffer for a line. -/
def lineBufSize : Nat := 128

/-- `EXIT_SUCCESS` -/
def exitSuccess : Int := 0

/-- `EXIT_FAILURE` -/
def exitFailure : Int := 1

/-- What a table lists for a module. -/
def listedFor (table : List ModDep) (name : Name) : List Name :=
  (table.filter fun mdp => mdp.name = name).flatMap fun mdp => mdp.list.splitOn comma

/-! ## The kernel -/

/-- A command with its line. -/
inductive Command where
  | insmod (name : Name) (line : List UInt8)
  | rmmod (name : Name) (line : List UInt8)
deriving DecidableEq

/-- The modules that are loaded, and the commands so far. -/
structure Kernel where
  loaded : List Name
  commands : List Command
deriving DecidableEq

/-- `utils_system` -/
def Kernel.system (table : List ModDep) (kernel : Kernel) (command : Command) : Kernel where
  loaded := match command with
    | .insmod name _ => load (listedFor table) kernel.loaded name
    | .rmmod name _ => unload (listedFor table) kernel.loaded name
  commands := kernel.commands ++ [command]

/-- The table, the version of the kernel, and the text of /proc/modules when certain modules are
loaded; without a text the file cannot be opened. -/
structure Target where
  table : List ModDep
  kver : List UInt8
  procModules : List Name → Option (List UInt8)

/-! ## Installing -/

/-- The line up to its first blank. -/
def firstWord (line : List UInt8) : List UInt8 :=
  match cutAt space line with
  | some (word, _) => word
  | none => line

/-- The loop over the lines of /proc/modules, with a bound on its turns. -/
def installedLoop (name : Name) : Nat → List UInt8 → Option Bool
  | 0, _ => none
  | turns + 1, file => do
    match ← fileGetLine lineBufSize hashSign lineTailString file with
    | none => return false
    | some (line, rest) =>
      if name = firstWord line then return true
      else installedLoop name turns rest

/-- Whether the module has been installed. -/
def installed (target : Target) (name : Name) (kernel : Kernel) : Option Bool :=
  match target.procModules kernel.loaded with
  | none => some false
  | some file => installedLoop name (file.length + 1) file

/-- The line that installs a module. -/
def insmodLine (kver : List UInt8) (name : Name) (args : Option (List UInt8)) : List UInt8 :=
  ascii "/sbin/insmod" ++ ascii " /lib/modules/" ++ kver ++ ascii "/" ++ name ++ ascii ".ko " ++
    args.getD []

/-- The loop over a list from the front, with a bound on its turns. -/
def fromFront (call : Name → Kernel → Option Kernel) : Nat → List UInt8 → Kernel → Option Kernel
  | 0, _, _ => none
  | turns + 1, p, kernel =>
    match cutAt comma p with
    | some (part, rest) => do
      let kernel ← call part kernel
      fromFront call turns rest kernel
    | none => call p kernel

/-- The loop over the table. -/
def eachEntry (name : Name) (loop : List UInt8 → Kernel → Option Kernel) :
    List ModDep → Kernel → Option Kernel
  | [], kernel => some kernel
  | mdp :: rest, kernel => do
    let kernel ← if mdp.name = name then loop mdp.list kernel else some kernel
    eachEntry name loop rest kernel

/-- `utils_install_kernel_module` for a name that is not NULL. -/
def installModule (target : Target) : Nat → Name → Option (List UInt8) → Kernel →
    Option (Int × Kernel)
  | 0, _, _, _ => none
  | depth + 1, name, args, kernel => do
    if ← installed target name kernel then return (exitSuccess, kernel)
    let call := fun part kernel => do
      let (_, kernel) ← installModule target depth part none kernel
      return kernel
    let kernel ← eachEntry name (fun list => fromFront call (list.length + 1) list)
      target.table kernel
    let command := Command.insmod name (insmodLine target.kver name args)
    return (exitSuccess, kernel.system target.table command)

/-- `utils_install_kernel_module` -/
def utilsInstallKernelModule (target : Target) (depth : Nat) (name : Option Name)
    (args : Option (List UInt8)) (kernel : Kernel) : Option (Int × Kernel) :=
  match name with
  | none => some (exitFailure, kernel)
  | some name => installModule target depth name args kernel

/-! ## Removing -/

/-- The line that removes a module. -/
def rmmodLine (name : Name) : List UInt8 := ascii "/sbin/rmmod" ++ ascii " " ++ name

/-- Cut at the last comma, as `strrchr` finds it. -/
def cutLast (p : List UInt8) : Option (List UInt8 × List UInt8) :=
  (cutAt comma p.reverse).map fun (part, front) => (front.reverse, part.reverse)

/-- The loop over a list from the back, with a bound on its turns. -/
def fromBack (call : Name → Kernel → Option Kernel) : Nat → List UInt8 → Kernel → Option Kernel
  | 0, _, _ => none
  | turns + 1, l, kernel =>
    match cutLast l with
    | some (front, part) => do
      let kernel ← call part kernel
      fromBack call turns front kernel
    | none => call l kernel

/-- `utils_remove_kernel_module` for a name that is not NULL. -/
def removeModule (target : Target) : Nat → Name → Kernel → Option (Int × Kernel)
  | 0, _, _ => none
  | depth + 1, name, kernel => do
    let kernel := kernel.system target.table (.rmmod name (rmmodLine name))
    let call := fun part kernel => do
      let (_, kernel) ← removeModule target depth part kernel
      return kernel
    let kernel ← eachEntry name (fun list => fromBack call (list.length + 1) list)
      target.table kernel
    return (exitSuccess, kernel)

/-- `utils_remove_kernel_module` -/
def utilsRemoveKernelModule (target : Target) (depth : Nat) (name : Option Name)
    (kernel : Kernel) : Option (Int × Kernel) :=
  match name with
  | none => some (exitFailure, kernel)
  | some name => removeModule target depth name kernel

/-! ## What the loops do -/

/-- The loop from the front calls for each part in order. -/
theorem fromFront_eq (call : Name → Kernel → Option Kernel) {turns : Nat} {p : List UInt8}
    (enough : p.length < turns) (kernel : Kernel) :
    fromFront call turns p kernel =
      (p.splitOn comma).foldlM (fun kernel part => call part kernel) kernel := by
  induction turns generalizing p kernel with
  | zero => cases enough
  | succ turns inductionHypothesis =>
    by_cases present : comma ∈ p
    · obtain ⟨part, rest, rfl, absent⟩ := List.eq_append_cons_of_mem present
      have shorter : rest.length < turns := by
        rw [List.length_append, List.length_cons] at enough
        omega
      rw [fromFront, cutAt_mark comma part rest absent,
        List.splitOn_append_cons_self_of_not_mem absent, List.foldlM_cons]
      exact bind_congr fun kernel => inductionHypothesis shorter kernel
    · rw [fromFront, cutAt_absent present, List.splitOn_eq_singleton present, List.foldlM_cons]
      cases call p kernel <;> rfl

/-- The last comma is found. -/
theorem cutLast_mark {front part : List UInt8} (absent : comma ∉ part) :
    cutLast (front ++ comma :: part) = some (front, part) := by
  have reversed : (front ++ comma :: part).reverse = part.reverse ++ comma :: front.reverse := by
    simp
  rw [cutLast, reversed, cutAt_mark comma _ _ (by simpa using absent)]
  simp

/-- The loop from the back calls for each part, the last one first. -/
theorem fromBack_eq (call : Name → Kernel → Option Kernel) {turns : Nat} {l : List UInt8}
    (enough : l.length < turns) (kernel : Kernel) :
    fromBack call turns l kernel =
      (l.splitOn comma).reverse.foldlM (fun kernel part => call part kernel) kernel := by
  induction turns generalizing l kernel with
  | zero => cases enough
  | succ turns inductionHypothesis =>
    by_cases present : comma ∈ l
    · obtain ⟨last, rest, same, absent⟩ := List.eq_append_cons_of_mem (List.mem_reverse.mpr present)
      have whole : l = rest.reverse ++ comma :: last.reverse := by
        rw [← List.reverse_reverse l, same]
        simp
      have plain : comma ∉ last.reverse := by simpa using absent
      have shorter : rest.reverse.length < turns := by
        rw [whole, List.length_append, List.length_cons] at enough
        omega
      rw [whole, fromBack, cutLast_mark plain, List.splitOn_append_cons_self,
        List.splitOn_eq_singleton plain, List.reverse_append, List.reverse_singleton,
        List.singleton_append, List.foldlM_cons]
      exact bind_congr fun kernel => inductionHypothesis shorter kernel
    · have uncut : cutLast l = none := by
        rw [cutLast, cutAt_absent (by simpa using present)]
        rfl
      rw [fromBack, uncut, List.splitOn_eq_singleton present, List.reverse_singleton,
        List.foldlM_cons]
      cases call l kernel <;> rfl

/-- The loop over the table goes over the lists of the entries for the name. -/
theorem eachEntry_eq (name : Name) {loop : List UInt8 → Kernel → Option Kernel}
    {call : Name → Kernel → Option Kernel} {parts : List UInt8 → List Name}
    (loops : ∀ list kernel, loop list kernel =
      (parts list).foldlM (fun kernel part => call part kernel) kernel)
    (table : List ModDep) (kernel : Kernel) :
    eachEntry name loop table kernel =
      ((table.filter fun mdp => mdp.name = name).flatMap fun mdp => parts mdp.list).foldlM
        (fun kernel part => call part kernel) kernel := by
  induction table generalizing kernel with
  | nil => rfl
  | cons mdp rest inductionHypothesis =>
    rw [eachEntry]
    by_cases meant : mdp.name = name
    · rw [if_pos meant, List.filter_cons_of_pos (by simpa using meant), List.flatMap_cons,
        List.foldlM_append, loops]
      exact bind_congr fun kernel => inductionHypothesis kernel
    · rw [if_neg meant, List.filter_cons_of_neg (by simpa using meant)]
      exact inductionHypothesis kernel

/-- Installing one part of a list. -/
def installPart (target : Target) (depth : Nat) (part : Name) (kernel : Kernel) :
    Option Kernel := do
  let (_, kernel) ← installModule target depth part none kernel
  return kernel

/-- Removing one part of a list. -/
def removePart (target : Target) (depth : Nat) (part : Name) (kernel : Kernel) :
    Option Kernel := do
  let (_, kernel) ← removeModule target depth part kernel
  return kernel

/-- A module that is not installed is installed behind what the table lists for it. -/
theorem installModule_listed {target : Target} {depth : Nat} {name : Name}
    {args : Option (List UInt8)} {kernel between : Kernel}
    (missing : installed target name kernel = some false)
    (called : (listedFor target.table name).foldlM
      (fun kernel part => installPart target depth part kernel) kernel = some between) :
    installModule target (depth + 1) name args kernel = some (exitSuccess,
      between.system target.table (.insmod name (insmodLine target.kver name args))) := by
  have entries := eachEntry_eq name (fun list kernel => fromFront_eq (installPart target depth)
    (Nat.lt_succ_self list.length) kernel) target.table kernel
  rw [installModule, bind_of_some missing, if_neg Bool.false_ne_true]
  exact bind_of_some (entries.trans called)

/-- The table lists these names, in the order in which they are removed. -/
def removedFor (table : List ModDep) (name : Name) : List Name :=
  (table.filter fun mdp => mdp.name = name).flatMap fun mdp => (mdp.list.splitOn comma).reverse

/-- They are the names that it lists. -/
theorem mem_removedFor {table : List ModDep} {name part : Name} :
    part ∈ removedFor table name ↔ part ∈ listedFor table name := by
  simp only [removedFor, listedFor, List.mem_flatMap, List.mem_reverse]

/-- A module is removed in front of what the table lists for it. -/
theorem removeModule_listed {target : Target} {depth : Nat} {name : Name} {kernel after : Kernel}
    (called : (removedFor target.table name).foldlM
      (fun kernel part => removePart target depth part kernel)
      (kernel.system target.table (.rmmod name (rmmodLine name))) = some after) :
    removeModule target (depth + 1) name kernel = some (exitSuccess, after) := by
  have entries := eachEntry_eq name (fun list kernel => fromBack_eq (removePart target depth)
    (Nat.lt_succ_self list.length) kernel) target.table
    (kernel.system target.table (.rmmod name (rmmodLine name)))
  rw [removeModule]
  exact bind_of_some (entries.trans called)

/-! ## What /proc/modules shows -/

/-- A line for a loaded module: its name and, behind a blank, something that does not end with
blanks. -/
structure ShowsModule (line : List UInt8) (name : Name) (details : List UInt8) : Prop where
  parts : line = name ++ space :: (details ++ [lineFeed])
  named : name ≠ []
  noComment : name.head? ≠ some 0x23
  plain : (0 : UInt8) ∉ name ∧ space ∉ name
  detailed : (0 : UInt8) ∉ details ∧ ∃ last, details.getLast? = some last ∧
    last ∉ lineTailString.bytes
  fits : line.length < lineBufSize

/-- The file has a line for each loaded module. -/
def Shows (file : List UInt8) (loaded : List Name) : Prop :=
  List.Forall₂ (fun line name => ∃ details, ShowsModule line name details) (lines file) loaded

/-- The text of a line that shows a module. -/
theorem returned_shown {line details : List UInt8} {name : Name}
    (shows : ShowsModule line name details) :
    Util.returned hashSign lineTailString line = some (name ++ space :: details) := by
  obtain ⟨nonul, last, ends, kept⟩ := shows.detailed
  obtain ⟨front, rfl⟩ := List.getLast?_eq_some_iff.mp ends
  obtain ⟨proper, -⟩ := shows.plain
  obtain ⟨first, more, rfl⟩ := List.exists_cons_of_ne_nil shows.named
  have plain := shows.noComment
  rw [List.mem_cons, not_or] at proper
  rw [List.head?_cons, Ne, Option.some.injEq] at plain
  have rest : (0 : UInt8) ∉ more ++ space :: (front ++ [last] ++ [lineFeed]) := by
    apply notMem_around proper.2 (by decide)
    rw [List.mem_append, not_or]
    exact ⟨nonul, by decide⟩
  have text : Util.bufferText (more ++ space :: (front ++ [last] ++ [lineFeed])) =
      (more ++ space :: front ++ [last]) ++ [lineFeed] := by
    rw [Util.bufferText, List.takeWhile_eq_self_iff.mpr]
    · simp
    · intro byte member
      exact decide_eq_true fun zero => rest (zero ▸ member)
  have trimmed : Util.trimmed lineTailString ((more ++ space :: front ++ [last]) ++ [lineFeed]) =
      more ++ space :: front ++ [last] := by
    rw [Util.trimmed, List.rdropWhile_concat, if_pos (by decide), List.rdropWhile_concat,
      if_neg (by simpa using kept)]
  have noComment : ¬ Util.isComment hashSign
      (first :: (more ++ space :: (front ++ [last] ++ [lineFeed]))) = true := by
    rw [Util.isComment, List.headD_cons, decide_eq_true_eq]
    exact fun member => plain (List.mem_singleton.mp member)
  rw [shows.parts, List.cons_append, Util.returned_eq _ _ (Ne.symm proper.1), if_neg noComment, text,
    trimmed, if_neg (by simp)]
  simp

/-- The first word of it is the name. -/
theorem firstWord_shown {line details : List UInt8} {name : Name}
    (shows : ShowsModule line name details) : firstWord (name ++ space :: details) = name := by
  rw [firstWord, cutAt_mark space name details shows.plain.2]

/-- The loop finds the name among the first words of the texts. -/
theorem installedLoop_eq (name : Name) {file : List UInt8} {texts : List (List UInt8)}
    (returns : Util.Returns lineBufSize hashSign lineTailString file texts) {turns : Nat}
    (enough : texts.length < turns) :
    installedLoop name turns file = some (decide (name ∈ texts.map firstWord)) := by
  induction returns generalizing turns with
  | stop failed =>
    obtain _ | turns := turns
    · cases enough
    · rw [installedLoop, bind_of_some failed]
      rfl
  | next got later inductionHypothesis =>
    obtain _ | turns := turns
    · cases enough
    · rw [installedLoop, bind_of_some got]
      dsimp only
      rw [List.map_cons]
      split
      · next same =>
        rw [same, decide_eq_true List.mem_cons_self]
        rfl
      · next other =>
        rw [inductionHypothesis (Nat.lt_of_succ_lt_succ enough)]
        congr 2
        rw [List.mem_cons, or_iff_right other]

/-- A module is installed when it is loaded. -/
theorem installed_eq {target : Target} {kernel : Kernel} {file : List UInt8} (name : Name)
    (here : target.procModules kernel.loaded = some file) (shows : Shows file kernel.loaded) :
    installed target name kernel = some (decide (name ∈ kernel.loaded)) := by
  have each : ∀ {texts : List (List UInt8)} {names : List Name},
      List.Forall₂ (fun line name => ∃ details, ShowsModule line name details) texts names →
      (texts.filterMap (Util.returned hashSign lineTailString)).map firstWord = names ∧
        ∀ line ∈ texts, line.length < lineBufSize := by
    intro texts names all
    induction all with
    | nil => exact ⟨rfl, List.forall_mem_nil _⟩
    | cons first _ inductionHypothesis =>
      obtain ⟨details, shown⟩ := first
      obtain ⟨words, fits⟩ := inductionHypothesis
      constructor
      · rw [List.filterMap_cons_some (returned_shown shown), List.map_cons, firstWord_shown shown,
          words]
      · exact List.forall_mem_cons.mpr ⟨shown.fits, fits⟩
  obtain ⟨words, fits⟩ := each shows
  have returns : Util.Returns lineBufSize hashSign lineTailString file
      ((lines file).filterMap (Util.returned hashSign lineTailString)) :=
    Util.returns_lines file fits
  have few := List.length_filterMap_le (Util.returned hashSign lineTailString) (lines file)
  have bounded := lines_length_le file
  rw [installed, here]
  dsimp only
  rw [installedLoop_eq name returns (by omega), words]

end Ezcfg.Daemon
