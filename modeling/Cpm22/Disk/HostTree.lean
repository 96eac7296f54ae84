import Cpm22.Disk.Calls
import Cpm22.Disk.Layout

set_option relaxedAutoImplicit false
set_option autoImplicit false

/-!
# CP/M files in the host directory

The files of user 0 lie in the directory of the drive, beside the directories that hold the files
of the users 1 to 15. A legal name survives the way to the host and back. Two different files have
different host paths; still they can be in each other's way: a file of user 0 whose name is the
number of a user has the path of that user's directory.

## Main definitions

* `Cpm22.CpmFile` — a CP/M file: a user number up to 15 and a legal name.
* `Cpm22.CpmFile.place` — the path of its host file.
* `Cpm22.CpmFile.Blocks` — a file has the path of the directory of another.
* `Cpm22.Disk.EmptyDrive` — a host that works, with an empty directory for the drive.
* `Cpm22.Disk.CreatesBoth` — two files can be created one after the other.

## Main results

* `Cpm22.CpmFile.round_trip` — the host path of a file is one that `readhost` reads as this file.
* `Cpm22.CpmFile.separate_iff` — the host paths of two files do not interfere iff neither file has
  the path of the other's directory.
-/

namespace Cpm22

open HostPath HostFs

/-- **A CP/M file**: a user number up to 15 and an upper-case legal 8.3 name, blank-padded as in a
directory entry. -/
structure CpmFile where
  user : UInt8
  fx : Fin 8 → UInt8
  ex : Fin 3 → UInt8
  user_le : user.toNat ≤ 15
  legal : ({ CpmDir.empty with st := user, fx := fx, ex := ex } : CpmDir).LegalName

namespace CpmFile

/-- The directory entry of the first extent of a file. -/
def entry (f : CpmFile) : CpmDir := { CpmDir.empty with st := f.user, fx := f.fx, ex := f.ex }

/-- The name of the host file. -/
def hostName (f : CpmFile) : Bytes := hostFile f.entry.nameText

/-- **The path that `mkhostname` gives a file**, in normal form. -/
def place (path : Bytes) (f : CpmFile) : NPath := normal (hostPath path f.entry.getName)

variable {path : Bytes} {f f' : CpmFile}

/-- The name of the entry is legal. -/
lemma legalName (f : CpmFile) : f.entry.LegalName := f.legal

/-- The entry is in use. -/
lemma used (f : CpmFile) : f.entry.Used := by
  intro h
  have := f.user_le
  have hst : f.user = CpmDir.UNUSED := h
  rw [hst] at this
  exact absurd this (by decide)

/-- It is the entry of extent 0. -/
lemma getExtNumber (f : CpmFile) : f.entry.getExtNumber = 0 := by
  simp [CpmDir.getExtNumber, entry, CpmDir.empty]

/-- The host name is a plain one. -/
lemma plain (f : CpmFile) : Plain f.hostName := f.legalName.plain

/-- Different files have different names. -/
lemma getName_ne (h : f ≠ f') : f.entry.getName ≠ f'.entry.getName := by
  intro hname
  obtain ⟨h1, h2, h3⟩ := CpmDir.getName_inj hname
  apply h
  obtain ⟨u, fx, ex, _, _⟩ := f
  obtain ⟨u', fx', ex', _, _⟩ := f'
  obtain rfl : u = u' := h1
  obtain rfl : fx = fx' := h2
  obtain rfl : ex = ex' := h3
  rfl

/-- The components of the host path. -/
lemma place_eq (hpath : path ≠ []) (f : CpmFile) : f.place path =
    ⟨(normal path).absolute, (normal path).comps ++ (userComps f.user ++ [f.hostName])⟩ := by
  obtain ⟨hne, hdir⟩ := normal_hostDir hpath f.user
  rw [place, hostPath, splitUser_getName]
  show normal (append (hostDir path f.user.toNat) f.hostName) = _
  rw [normal_append_plain hne f.plain, hdir, List.append_assoc]

/-- Different files have different host paths. -/
lemma place_ne (hpath : path ≠ []) (h : f ≠ f') : f.place path ≠ f'.place path := by
  intro hplace
  exact getName_ne h ((denotes_hostPath hpath f.legalName).inj
    (denotes_hostPath hpath f'.legalName) hplace)

/-! ## The round trip -/

/-- The users that `readhost` has a directory for. -/
lemma user_mem (f : CpmFile) : f.user = 0 ∨ f.user ∈ Disk.users := by
  have key : ∀ n : Fin 256, n.val ≤ 15 → UInt8.ofNat n = 0 ∨ UInt8.ofNat n ∈ Disk.users := by
    decide +kernel
  have h := key ⟨f.user.toNat, f.user.toNat_lt⟩ f.user_le
  simpa using h

/-- The normal form of a plain name in the directory that `readhost` reads for a user. -/
lemma normal_userPath (hpath : path ≠ []) (u : UInt8) {n : Bytes} (hn : Plain n) :
    normal (Disk.userPath path u ++ slash :: n) =
      ⟨(normal path).absolute, (normal path).comps ++ (userComps u ++ [n])⟩ := by
  unfold Disk.userPath userComps
  by_cases hu : u = 0
  · rw [if_pos hu, if_pos hu, normal_join_plain hpath hn, List.nil_append]
  · rw [if_neg hu, if_neg hu, normal_join_plain (by simp) hn,
      normal_join_plain hpath (plain_decimal u), List.append_assoc]

/-- **The path that `mkhostname` returns** has the normal form of the file's place. -/
lemma normal_mkhostname {dk dk' : Disk} {p : Bytes} (hpath : dk.path = path)
    (h : Disk.mkhostname f.entry.getName dk = .ok p dk') : normal p = f.place path := by
  rw [Disk.mkhostname_apply] at h
  simp only at h
  split at h
  · cases h
    rw [place, hpath]
  · cases h

/-- **The round trip of names through the host.** Whenever `mkhostname` returns, for a file on a
disk with this directory, the path it returns is a plain name in the directory that `readhost`
reads for the file's user; `readhost` takes a regular file there as a file of that user, with a
name that `SetName` stores as the same eleven bytes, and so with the same key.

**Proof sketch.** `mkhostname` recovers the user number from the hexadecimal digits in front of the
name, and the decimal directory is the one that `readhost` makes from the number. Without blanks a
legal name is its base and, behind a dot, its extension; both are copied back by the scanner. -/
theorem round_trip (hpath : path ≠ []) (f : CpmFile) :
    ∃ n s, Plain n ∧ (f.place path).comps.getLast? = some n ∧
      (∀ (dk dk' : Disk) (p : Bytes), dk.path = path →
        Disk.mkhostname f.entry.getName dk = .ok p dk' → normal p = f.place path) ∧
      (f.user = 0 ∨ f.user ∈ Disk.users) ∧
      f.place path = normal (Disk.userPath path f.user ++ slash :: n) ∧
      cpmName n = some s ∧
      (∀ e : CpmDir, (e.setName s).fx = f.fx ∧ (e.setName s).ex = f.ex) ∧
      keyOf f.user s = f.entry.getName ∧
      ∀ (dk : Disk) (size : ℕ),
        dk.host.stat (Disk.userPath path f.user ++ slash :: n) = some (.regular size) →
        Disk.importName (Disk.userPath path f.user) f.user n dk =
          Disk.addfile (Disk.userPath path f.user ++ slash :: n) f.user s dk := by
  obtain ⟨c, hs⟩ := cpmName_hostFile f.legalName
  have hplain := f.plain
  have hset : ∀ e : CpmDir, _ := fun e => setName_append f.entry e c
  refine ⟨f.hostName, _, hplain, ?_, fun _ _ _ => normal_mkhostname, f.user_mem, ?_, hs, hset, ?_,
    ?_⟩
  · rw [place_eq hpath]
    simp
  · rw [place_eq hpath, normal_userPath hpath _ hplain]
  · obtain ⟨hfx, hex⟩ := hset { CpmDir.empty with st := f.user }
    exact CpmDir.getName_congr rfl hfx hex
  · intro dk size hstat
    rw [Disk.importName, Exc.get_bind, if_neg (not_or.mpr ⟨hplain.2.1, hplain.2.2.1⟩)]
    simp only [hstat]
    rw [show cpmName f.hostName = _ from hs]

/-- A file with a name of one character. -/
lemma legal_single (u : UInt8) {x : UInt8} (hx : legalChar x = true) :
    ({ CpmDir.empty with
      st := u, fx := fun i => if i.val = 0 then x else ch ' ', ex := fun _ => ch ' ' } :
      CpmDir).LegalName := by
  have hblank : ∀ n, ∀ c ∈ (List.replicate n (ch ' ')).dropWhile legalChar, c = ch ' ' := by
    intro n c hc
    exact List.eq_of_mem_replicate ((List.dropWhile_sublist _).mem hc)
  refine ⟨?_, hblank 3, hx⟩
  have hfield : (List.ofFn fun i : Fin 8 => if i.val = 0 then x else ch ' ') =
      x :: List.replicate 7 (ch ' ') := rfl
  intro c hc
  rw [hfield, List.dropWhile_cons, if_pos hx] at hc
  exact hblank 7 c hc

/-- **The file of user `u` whose name is the character `x`.** -/
def single (u x : UInt8) (hu : u.toNat ≤ 15) (hx : legalChar x = true) : CpmFile :=
  ⟨u, fun i => if i.val = 0 then x else ch ' ', fun _ => ch ' ', hu, legal_single u hx⟩

/-! ## Two files -/

/-- **The file has the path of the other's directory**: it is a file of user 0 whose name is the
number of the other's user. -/
def Blocks (f f' : CpmFile) : Prop :=
  f.user = 0 ∧ f'.user ≠ 0 ∧ f.hostName = decimal f'.user.toNat

instance (f f' : CpmFile) : Decidable (Blocks f f') := inferInstanceAs (Decidable (_ ∧ _))

/-- What it means for a path to be a prefix of another. -/
lemma isPrefix_iff (hpath : path ≠ []) :
    (f.place path).comps <+: (f'.place path).comps ↔
      userComps f.user ++ [f.hostName] <+: userComps f'.user ++ [f'.hostName] := by
  rw [place_eq hpath, place_eq hpath]
  exact List.prefix_append_right_inj _

/-- **A path is a directory prefix of another** iff the file has the path of the other's
directory. -/
lemma isPrefix_iff_blocks (hpath : path ≠ []) (hne : f ≠ f') :
    (f.place path).comps <+: (f'.place path).comps ↔ f.Blocks f' := by
  have hcomps : userComps f.user ++ [f.hostName] ≠ userComps f'.user ++ [f'.hostName] := by
    intro heq
    apply place_ne hpath hne
    rw [place_eq hpath, place_eq hpath, heq]
  rw [isPrefix_iff hpath, Blocks]
  by_cases hu : f.user = 0 <;> by_cases hu' : f'.user = 0
  · -- two files of user 0: the paths have the same length
    have hnot : ¬ userComps f.user ++ [f.hostName] <+: userComps f'.user ++ [f'.hostName] :=
      fun h => hcomps (h.eq_of_length (by simp [userComps, hu, hu']))
    exact iff_of_false hnot fun h => h.2.1 hu'
  · simp [userComps, hu, hu']
  · simp [userComps, hu, hu']
  · -- two files of other users: the paths have the same length
    have hnot : ¬ userComps f.user ++ [f.hostName] <+: userComps f'.user ++ [f'.hostName] :=
      fun h => hcomps (h.eq_of_length (by simp [userComps, hu, hu']))
    exact iff_of_false hnot fun h => hu h.1

end CpmFile

/-! ## Creating files -/

namespace Disk

/-- **A host that works, with an empty directory for the drive** at `path`. -/
structure EmptyDrive (path : Bytes) (h : Host) : Prop where
  works : h.Works
  dirs : ∀ cs, cs <+: (normal path).comps → h.node ⟨(normal path).absolute, cs⟩ = some .dir
  empty : ∀ rest, rest ≠ [] →
    h.node ⟨(normal path).absolute, (normal path).comps ++ rest⟩ = none

/-- `Write` creates a file: its entry comes in the place of an unused one. -/
def createFile (f : CpmFile) : DiskM Unit := hostChange CpmDir.empty f.entry

/-- **Two files can be created one after the other** in an empty drive. -/
def CreatesBoth (path : Bytes) (f f' : CpmFile) : Prop :=
  ∀ dk : Disk, dk.path = path → EmptyDrive path dk.host →
    Exc.Returns ((do createFile f; createFile f' : DiskM Unit) dk)

/-- The path of a user's directory. -/
def userDir (path : Bytes) (u : UInt8) : NPath :=
  ⟨(normal path).absolute, (normal path).comps ++ userComps u⟩

variable {path : Bytes} {f f' : CpmFile} {dk : Disk}

/-- The directory of a user can be made.

**Proof sketch.** The components of the drive are directories. User 0 has the drive directory
itself; for the others one more directory is there or is made. -/
lemma createDirectories_ok (hpath : path ≠ []) {h : Host} {u : UInt8} (hw : h.Works)
    (hdirs : ∀ cs, cs <+: (normal path).comps → h.node ⟨(normal path).absolute, cs⟩ = some .dir)
    (huser : h.node (userDir path u) = none ∨ h.node (userDir path u) = some .dir) :
    ∃ h', h.createDirectories (hostDir path u.toNat) = (true, h') ∧ h'.Works ∧
      h'.node = Function.update h.node (userDir path u) (some .dir) := by
  obtain ⟨hne, hdir⟩ := normal_hostDir hpath u
  have hmk : mkdirs (normal path).absolute [] ((normal path).comps ++ userComps u) h.node =
      some (Function.update h.node (userDir path u) (some .dir)) := by
    rw [mkdirs_of_dirs fun ds hds _ => hdirs ds hds, List.nil_append]
    by_cases hu : u = 0
    · have hself := hdirs _ (List.prefix_refl (normal path).comps)
      have huser : userDir path u = ⟨(normal path).absolute, (normal path).comps⟩ := by
        simp [userDir, userComps, hu]
      rw [userComps, if_pos hu, mkdirs, huser, ← hself, Function.update_eq_self]
    · have huser' : userDir path u =
          ⟨(normal path).absolute, (normal path).comps ++ [decimal u.toNat]⟩ := by
        simp [userDir, userComps, hu]
      rw [userComps, if_neg hu, huser']
      rw [huser'] at huser
      exact mkdirs_single huser
  refine ⟨{ h with
    node := Function.update h.node (userDir path u) (some .dir)
    calls := h.calls ++ [⟨.createDirectories (hostDir path u.toNat), true⟩] }, ?_, hw, rfl⟩
  rw [Host.createDirectories, if_neg hne, hdir, hmk, Host.attempt_of_works hw]

/-- **A file can be created** where its user's directory is one or can be made, and nothing has the
file's path.

**Proof sketch.** The directory of the user is one or is made (`createDirectories_ok`). The place
of the file is in it and is not the directory, so that nothing has its path and its parent is a
directory. -/
lemma createFile_ok (hpath : dk.path ≠ []) (hw : dk.host.Works)
    (hdirs : ∀ cs, cs <+: (normal dk.path).comps →
      dk.host.node ⟨(normal dk.path).absolute, cs⟩ = some .dir)
    (huser : dk.host.node (userDir dk.path f.user) = none ∨
      dk.host.node (userDir dk.path f.user) = some .dir)
    (hfile : dk.host.node (f.place dk.path) = none) :
    ∃ dk', createFile f dk = .ok () dk' ∧ dk'.path = dk.path ∧ dk'.host.Works ∧
      dk'.host.node = Function.update
        (Function.update dk.host.node (userDir dk.path f.user) (some .dir))
        (f.place dk.path) (some (.file [])) := by
  obtain ⟨h', hmk, hw', hnode⟩ := createDirectories_ok hpath hw hdirs huser
  have hplace := CpmFile.place_eq hpath f
  have hne : f.place dk.path ≠ userDir dk.path f.user := by
    rw [hplace, userDir]
    intro heq
    have := congrArg (List.length ∘ NPath.comps) heq
    simp at this
  have hnone : h'.node (f.place dk.path) = none := by
    rw [hnode, Function.update_of_ne hne, hfile]
  have hparent : Host.hasParent h'.node (f.place dk.path) = true := by
    have hdir : (f.place dk.path).parent = some (userDir dk.path f.user) := by
      rw [hplace, NPath.parent, if_neg (by simp), userDir, ← List.append_assoc,
        List.dropLast_concat]
    simp [Host.hasParent, hdir, hnode]
  have hnonempty : hostPath dk.path f.entry.getName ≠ [] := by
    obtain ⟨-, -, -, -, -, -, h, -⟩ := denotes_hostPath hpath f.legalName
    exact h
  have hcreate : h'.create (hostPath dk.path f.entry.getName) =
      (true, { h' with
        node := Function.update h'.node (f.place dk.path) (some (.file []))
        calls := h'.calls ++ [⟨.create (hostPath dk.path f.entry.getName), true⟩] }) := by
    have heffect : h'.createEffect (hostPath dk.path f.entry.getName) =
        some (Function.update h'.node (f.place dk.path) (some (.file []))) := by
      have hnode' : h'.node (normal (hostPath dk.path f.entry.getName)) = none := hnone
      rw [Host.createEffect, if_neg hnonempty, hnode']
      exact if_pos hparent
    rw [Host.create, heffect, Host.attempt_of_works hw']
  have hchange := hostChange_create f.used (show ¬ CpmDir.empty.Used by decide) f.getExtNumber dk
  have hst : f.entry.st = f.user := rfl
  simp only [hst, hmk, hcreate, if_true] at hchange
  exact ⟨_, hchange, rfl, hw', by simp only [hnode]⟩

/-- A user's directory in an empty drive can be made. -/
lemma EmptyDrive.userDir {h : Host} (hempty : EmptyDrive path h) (u : UInt8) :
    h.node (userDir path u) = none ∨ h.node (userDir path u) = some .dir := by
  by_cases hu : u = 0
  · right
    simpa [Disk.userDir, userComps, hu] using hempty.dirs _ (List.prefix_refl _)
  · left
    simpa [Disk.userDir, userComps, hu] using hempty.empty [decimal u.toNat] (by simp)

/-- The path of a file in an empty drive is free. -/
lemma EmptyDrive.place {h : Host} (hempty : EmptyDrive path h) (hpath : path ≠ [])
    (f : CpmFile) : h.node (f.place path) = none := by
  rw [CpmFile.place_eq hpath]
  exact hempty.empty _ (by simp)

/-- A file that has the path of a user's directory is a file of user 0 with the number of the
user. -/
lemma blocks_of_place_eq (hpath : path ≠ []) (h : f.place path = userDir path f'.user) :
    f.Blocks f' := by
  rw [CpmFile.place_eq hpath, userDir, NPath.mk.injEq, List.append_cancel_left_eq] at h
  by_cases hu' : f'.user = 0
  · simp [userComps, hu'] at h
  · by_cases hu : f.user = 0
    · refine ⟨hu, hu', ?_⟩
      simpa [userComps, hu, hu'] using h
    · simp [userComps, hu, hu'] at h

/-- **Two files can be created** if neither has the path of the other's directory.

**Proof sketch.** The first file is made in the empty drive. After it the drive holds the file and
its user's directory. The directory of the second file is not the first file, and the second file
is neither the first one nor its directory. -/
lemma createsBoth (hpath : path ≠ []) (hne : f ≠ f') (h : ¬ f.Blocks f') (h' : ¬ f'.Blocks f) :
    CreatesBoth path f f' := by
  rintro dk rfl hempty
  obtain ⟨dk₁, hcreate, hpath₁, hw₁, hnode₁⟩ := createFile_ok hpath hempty.works hempty.dirs
    (hempty.userDir f.user) (hempty.place hpath f)
  rw [Exc.bind_of_ok hcreate]
  have hdirs : ∀ cs, cs <+: (normal dk₁.path).comps →
      dk₁.host.node ⟨(normal dk₁.path).absolute, cs⟩ = some .dir := by
    intro cs hcs
    rw [hpath₁] at hcs ⊢
    have hplace : (⟨(normal dk.path).absolute, cs⟩ : NPath) ≠ f.place dk.path := by
      rw [CpmFile.place_eq hpath]
      intro heq
      have hlen := congrArg (List.length ∘ NPath.comps) heq
      have hle := hcs.length_le
      simp at hlen
      omega
    rw [hnode₁, Function.update_of_ne hplace, Function.update_apply, hempty.dirs cs hcs, ite_self]
  have huser : dk₁.host.node (userDir dk₁.path f'.user) = none ∨
      dk₁.host.node (userDir dk₁.path f'.user) = some .dir := by
    have hplace : userDir dk.path f'.user ≠ f.place dk.path :=
      fun heq => h (blocks_of_place_eq hpath heq.symm)
    rw [hpath₁, hnode₁, Function.update_of_ne hplace, Function.update_apply]
    split
    · exact .inr rfl
    · exact hempty.userDir f'.user
  have hfile : dk₁.host.node (f'.place dk₁.path) = none := by
    have hplace : f'.place dk.path ≠ f.place dk.path := CpmFile.place_ne hpath hne.symm
    have hdir : f'.place dk.path ≠ userDir dk.path f.user :=
      fun heq => h' (blocks_of_place_eq hpath heq)
    rw [hpath₁, hnode₁, Function.update_of_ne hplace, Function.update_of_ne hdir]
    exact hempty.place hpath f'
  obtain ⟨dk₂, hcreate₂, -⟩ := createFile_ok (by rw [hpath₁]; exact hpath) hw₁ hdirs huser hfile
  exact ⟨(), dk₂, hcreate₂⟩

end Disk

namespace CpmFile

open Disk

variable {path : Bytes} {f f' : CpmFile}

/-- **The host paths of two files do not interfere**: they are different, neither is a directory on
the way to the other, and the two files can be created in either order. -/
structure Separate (path : Bytes) (f f' : CpmFile) : Prop where
  different : f.place path ≠ f'.place path
  not_prefix : ¬ (f.place path).comps <+: (f'.place path).comps
  not_prefix' : ¬ (f'.place path).comps <+: (f.place path).comps
  creates : CreatesBoth path f f'
  creates' : CreatesBoth path f' f

/-- **The host paths of two different files do not interfere** iff neither file is a file of user 0
whose name is the number of the other's user. -/
theorem separate_iff (hpath : path ≠ []) (hne : f ≠ f') :
    Separate path f f' ↔ ¬ f.Blocks f' ∧ ¬ f'.Blocks f := by
  constructor
  · intro h
    exact ⟨fun hb => h.not_prefix ((isPrefix_iff_blocks hpath hne).mpr hb),
      fun hb => h.not_prefix' ((isPrefix_iff_blocks hpath hne.symm).mpr hb)⟩
  · rintro ⟨hb, hb'⟩
    exact ⟨place_ne hpath hne, fun h => hb ((isPrefix_iff_blocks hpath hne).mp h),
      fun h => hb' ((isPrefix_iff_blocks hpath hne.symm).mp h), createsBoth hpath hne hb hb',
      createsBoth hpath hne.symm hb' hb⟩

/-- User 0 is a user. -/
lemma zero_le : (0 : UInt8).toNat ≤ 15 := by decide

/-- User 1 is a user. -/
lemma one_le : (1 : UInt8).toNat ≤ 15 := by decide

/-- `A` is a legal name. -/
lemma legalChar_A : legalChar (ch 'A') = true := by decide

/-- `1` is a legal name. -/
lemma legalChar_one : legalChar (ch '1') = true := by decide

/-- The file `A` of user 1 on the host and back. -/
theorem round_trip_A : ∃ n s,
    (single 1 (ch 'A') one_le legalChar_A).place drivePath =
      normal (userPath drivePath 1 ++ slash :: n) ∧ cpmName n = some s ∧
    keyOf 1 s = (single 1 (ch 'A') one_le legalChar_A).entry.getName := by
  have hpath : drivePath ≠ [] := by decide
  obtain ⟨n, s, -, -, -, -, hplace, hs, -, hkey, -⟩ :=
    round_trip hpath (single 1 (ch 'A') one_le legalChar_A)
  exact ⟨n, s, hplace, hs, hkey⟩

/-- The files `A` of the users 0 and 1. -/
theorem separate_A : Separate drivePath (single 0 (ch 'A') zero_le legalChar_A)
    (single 1 (ch 'A') one_le legalChar_A) := by
  refine (separate_iff (by decide) ?_).mpr (by decide)
  intro h
  exact absurd (congrArg CpmFile.user h) (show ¬ (0 : UInt8) = 1 by decide)

/-- **The file `1` of user 0 is in the way of the file `A` of user 1.** Whichever is created first,
the other cannot be created. -/
theorem not_separate_one :
    ¬ Separate drivePath (single 0 (ch '1') zero_le legalChar_one)
      (single 1 (ch 'A') one_le legalChar_A) ∧
    Exc.fault ((do
      createFile (single 0 (ch '1') zero_le legalChar_one)
      createFile (single 1 (ch 'A') one_le legalChar_A) : DiskM Unit)
        (blank drivePath ibm8 emptyDrive)) = some .systemError ∧
    Exc.fault ((do
      createFile (single 1 (ch 'A') one_le legalChar_A)
      createFile (single 0 (ch '1') zero_le legalChar_one) : DiskM Unit)
        (blank drivePath ibm8 emptyDrive)) = some .rethrow := by
  refine ⟨?_, by decide, by decide⟩
  intro h
  apply h.not_prefix
  decide

end CpmFile

end Cpm22
