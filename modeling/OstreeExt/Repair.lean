import OstreeExt.Prelude
import OstreeExt.Lib.Maps
import Mathlib.Data.Set.Function
import Std.Data.ExtTreeSet

/-!
# Colliding inodes

`repair.rs` looks for objects whose inode numbers are the same once they are truncated to
32 bits.  The inode numbers of all objects are gathered into two maps, one for those that fit
into 32 bits and one for the others, and each large number is looked up, truncated, among the
small ones.  Two large numbers are never compared with each other; `collisions_complete_iff`
says what that misses.
-/

namespace OstreeExt.Repair

open OstreeExt Std

/-- A file name, which need not be UTF-8. -/
inductive OsName where
  | utf8 (s : String)
  | raw (b : Bytes)
  deriving DecidableEq

/-- `OsStr::len`: the length in bytes. -/
def OsName.len : OsName → Nat
  | .utf8 s => strLen s.toList
  | .raw b => b.length

/-- `OsStr::to_str`, or the error of the code. -/
def OsName.toStr : OsName → Result String
  | .utf8 s => .ok s
  | .raw _ => .error (.err "Invalid")

/-- A directory as it is read: opening it may fail, and so may each entry. -/
abbrev Listing (α : Type) := Result (List (Result α))

/-- The metadata of a directory entry. -/
structure Metadata where
  isFile : Bool
  isSymlink : Bool
  ino : UInt64
  deriving DecidableEq

/-- An entry of a directory below `objects`. -/
structure ObjectChild where
  name : OsName
  metadata : Result Metadata

/-- An entry of `objects`: whether it is a directory, and what `open_dir` finds in it. -/
structure ObjectDir where
  name : OsName
  isDir : Result Bool
  entries : Listing ObjectChild

/-- The inode fits into 32 bits: `u32::try_from` succeeds. -/
def FitsU32 (inode : UInt64) : Prop := inode.toNat < 2 ^ 32

instance (inode : UInt64) : Decidable (FitsU32 inode) := Nat.decLt _ _

/-- The two maps from inodes to checksums. -/
structure Inodes where
  little : ExtTreeMap UInt32 String := ∅
  big : ExtTreeMap UInt64 String := ∅
  big_large : ∀ inode ∈ big, ¬ FitsU32 inode := by simp

/-- Record the inode of an object. -/
def Inodes.insert (i : Inodes) (inode : UInt64) (checksum : String) : Inodes :=
  if h : FitsU32 inode then { i with little := i.little.insert inode.toUInt32 checksum }
  else { i with
    big := i.big.insert inode checksum
    big_large := by
      intro n hn
      rcases ExtTreeMap.mem_insert.mp hn with heq | hn
      · rw [← Std.compare_eq_iff_eq.mp heq]
        exact h
      · exact i.big_large n hn }

/-- One entry in the loop of `gather_inodes`. -/
def gatherChild (pfx : String) (i : Inodes) (child : Result ObjectChild) : Result Inodes := do
  let child ← child
  let metadata ← child.metadata
  if ¬ (metadata.isFile ∨ metadata.isSymlink) then .ok i
  else do
    let name ← child.name.toStr
    let parts ← okOr ("Invalid object " ++ name) (splitOnce '.' name.toList)
    .ok (i.insert metadata.ino (pfx ++ String.ofList parts.1))

/-- `gather_inodes` -/
def gatherInodes (pfx : String) (dir : Listing ObjectChild) (i : Inodes) : Result Inodes := do
  let children ← dir
  children.foldlM (gatherChild pfx) i

/-- One entry in the loop of `check_inode_collision` over `objects`. -/
def gatherDir (i : Inodes) (child : Result ObjectDir) : Result Inodes := do
  let child ← child
  if ¬ (← child.isDir) then .ok i
  else if child.name.len ≠ 2 then .ok i
  else do
    let name ← child.name.toStr
    gatherInodes name child.entries i

/-- `InodeCheck` -/
structure InodeCheck where
  inode64 : Nat
  inode32 : Nat
  collisions : ExtTreeSet UInt64

/-- `InodeCheck::is_ok` -/
def InodeCheck.isOk (check : InodeCheck) : Bool := check.collisions.isEmpty

/-- The large inodes that are, truncated, a small one. -/
def Inodes.colliding (i : Inodes) : List UInt64 :=
  (i.big.toList.map (·.1)).filter fun bigInum => bigInum.toUInt32 ∈ i.little

/-- `check_inode_collision`; `verbose` only prints. -/
def checkInodeCollision (objects : Listing ObjectDir) : Result InodeCheck := do
  let children ← objects
  let i ← children.foldlM gatherDir {}
  .ok { inode64 := i.big.size, inode32 := i.little.size, collisions := .ofList i.colliding }

-- ── What is gathered ──────────────────────────────────────────────────────────

/-- The inode is recorded. -/
def Inodes.Has (i : Inodes) (inode : UInt64) : Prop :=
  if FitsU32 inode then inode.toUInt32 ∈ i.little else inode ∈ i.big

/-- Truncation does not change a number that fits. -/
theorem toUInt32_toNat_of_fits {n : UInt64} (h : FitsU32 n) : n.toUInt32.toNat = n.toNat := by
  rw [UInt64.toNat_toUInt32]
  exact Nat.mod_eq_of_lt h

/-- Two numbers that fit have different truncations. -/
theorem fits_inj {m n : UInt64} (hm : FitsU32 m) (hn : FitsU32 n)
    (h : m.toUInt32 = n.toUInt32) : m = n := by
  apply UInt64.toNat_inj.mp
  rw [← toUInt32_toNat_of_fits hm, ← toUInt32_toNat_of_fits hn, h]

theorem Inodes.not_has_empty (inode : UInt64) : ¬ ({} : Inodes).Has inode := by
  rw [Has]
  split
  · exact ExtTreeMap.not_mem_empty
  · exact ExtTreeMap.not_mem_empty

/-- A recorded inode is there, with the earlier ones. -/
theorem Inodes.has_insert {i : Inodes} {inode n : UInt64} {checksum : String} :
    (i.insert inode checksum).Has n ↔ n = inode ∨ i.Has n := by
  rw [Has, Has, insert]
  by_cases hi : FitsU32 inode
  · rw [dif_pos hi]
    by_cases hn : FitsU32 n
    · rw [if_pos hn, if_pos hn]
      show n.toUInt32 ∈ i.little.insert inode.toUInt32 checksum ↔ _
      rw [ExtTreeMap.mem_insert, Std.compare_eq_iff_eq]
      exact or_congr ⟨fun h => fits_inj hn hi h.symm, fun h => by rw [h]⟩ Iff.rfl
    · rw [if_neg hn, if_neg hn]
      exact ⟨.inr, fun h => h.resolve_left (fun heq => hn (heq ▸ hi))⟩
  · rw [dif_neg hi]
    by_cases hn : FitsU32 n
    · rw [if_pos hn, if_pos hn]
      exact ⟨.inr, fun h => h.resolve_left (fun heq => hi (heq ▸ hn))⟩
    · rw [if_neg hn, if_neg hn]
      show n ∈ i.big.insert inode checksum ↔ _
      rw [ExtTreeMap.mem_insert, Std.compare_eq_iff_eq]
      exact or_congr ⟨Eq.symm, Eq.symm⟩ Iff.rfl

/-- The entry is that of an object with this inode. -/
def ObjectChild.HasInode (child : ObjectChild) (inode : UInt64) : Prop :=
  ∃ metadata, child.metadata = .ok metadata ∧ (metadata.isFile ∨ metadata.isSymlink) ∧
    metadata.ino = inode

/-- **The inodes of the objects**: those of the files and symbolic links in the directories
    below `objects` whose names have two bytes. -/
def objectInodes (objects : List (Result ObjectDir)) : Set UInt64 := fun inode =>
  ∃ dir, .ok dir ∈ objects ∧ dir.isDir = .ok true ∧ dir.name.len = 2 ∧
    ∃ children, dir.entries = .ok children ∧ ∃ child, .ok child ∈ children ∧ child.HasInode inode

theorem gatherChild_has {pfx : String} {i i' : Inodes} {child : Result ObjectChild}
    (h : gatherChild pfx i child = .ok i') (n : UInt64) :
    i'.Has n ↔ i.Has n ∨ ∃ c, child = .ok c ∧ c.HasInode n := by
  obtain ⟨c, rfl, h₁⟩ := result_bind_eq_ok.mp h
  obtain ⟨metadata, hmeta, h₂⟩ := result_bind_eq_ok.mp h₁
  have hiff : (∃ c', (Except.ok c : Result ObjectChild) = .ok c' ∧ c'.HasInode n) ↔
      (metadata.isFile ∨ metadata.isSymlink) ∧ metadata.ino = n := by
    constructor
    · rintro ⟨c', heq, m, hm, hkind, hino⟩
      injection heq with heq
      subst heq
      obtain rfl : metadata = m := Except.ok.inj (hmeta.symm.trans hm)
      exact ⟨hkind, hino⟩
    · rintro ⟨hkind, hino⟩
      exact ⟨c, rfl, metadata, hmeta, hkind, hino⟩
  rw [hiff]
  by_cases hkind : metadata.isFile ∨ metadata.isSymlink
  · rw [if_neg (not_not.mpr hkind)] at h₂
    obtain ⟨name, _, h₃⟩ := result_bind_eq_ok.mp h₂
    obtain ⟨parts, _, h₄⟩ := result_bind_eq_ok.mp h₃
    injection h₄ with heq
    subst heq
    rw [Inodes.has_insert, or_comm]
    exact or_congr Iff.rfl ⟨fun heq => ⟨hkind, heq.symm⟩, fun h => h.2.symm⟩
  · rw [if_pos hkind] at h₂
    injection h₂ with heq
    subst heq
    exact ⟨.inl, fun h => h.resolve_right (fun h => hkind h.1)⟩

/-- A loop that only adds what its elements bring. -/
theorem foldlM_has {α : Type} {f : Inodes → Result α → Result Inodes} {brings : α → UInt64 → Prop}
    (hf : ∀ i i' x, f i x = .ok i' → ∀ n, i'.Has n ↔ i.Has n ∨ ∃ a, x = .ok a ∧ brings a n)
    {l : List (Result α)} {i i' : Inodes} (h : l.foldlM f i = .ok i') (n : UInt64) :
    i'.Has n ↔ i.Has n ∨ ∃ a, .ok a ∈ l ∧ brings a n := by
  induction l generalizing i with
  | nil =>
      injection h with h
      subst h
      simp
  | cons x l ih =>
      rw [List.foldlM_cons] at h
      obtain ⟨i₁, hx, h⟩ := result_bind_eq_ok.mp h
      rw [ih h, hf i i₁ x hx, or_assoc]
      refine or_congr Iff.rfl ?_
      constructor
      · rintro (⟨a, rfl, ha⟩ | ⟨a, hmem, ha⟩)
        · exact ⟨a, List.mem_cons_self .., ha⟩
        · exact ⟨a, List.mem_cons_of_mem _ hmem, ha⟩
      · rintro ⟨a, hmem, ha⟩
        rcases List.mem_cons.mp hmem with heq | hmem
        · exact .inl ⟨a, heq.symm, ha⟩
        · exact .inr ⟨a, hmem, ha⟩

/-- What one directory brings. -/
def ObjectDir.Brings (dir : ObjectDir) (inode : UInt64) : Prop :=
  dir.isDir = .ok true ∧ dir.name.len = 2 ∧
    ∃ children, dir.entries = .ok children ∧ ∃ child, .ok child ∈ children ∧ child.HasInode inode

theorem gatherDir_has {i i' : Inodes} {child : Result ObjectDir}
    (h : gatherDir i child = .ok i') (n : UInt64) :
    i'.Has n ↔ i.Has n ∨ ∃ dir, child = .ok dir ∧ dir.Brings n := by
  obtain ⟨dir, rfl, h₁⟩ := result_bind_eq_ok.mp h
  obtain ⟨isDir, hdir, h₂⟩ := result_bind_eq_ok.mp h₁
  have hiff : (∃ dir', (Except.ok dir : Result ObjectDir) = .ok dir' ∧ dir'.Brings n) ↔
      dir.Brings n := by
    constructor
    · rintro ⟨dir', heq, hb⟩
      injection heq with heq
      exact heq ▸ hb
    · exact fun hb => ⟨dir, rfl, hb⟩
  rw [hiff]
  have hskip : ¬ (isDir = true ∧ dir.name.len = 2) → i' = i →
      (i'.Has n ↔ i.Has n ∨ dir.Brings n) := by
    rintro hnot rfl
    refine ⟨.inl, fun h => h.resolve_right ?_⟩
    rintro ⟨hd, hlen, _⟩
    exact hnot ⟨Except.ok.inj (hdir.symm.trans hd), hlen⟩
  by_cases hd : isDir = true
  · rw [if_neg (not_not.mpr hd)] at h₂
    by_cases hlen : dir.name.len = 2
    · rw [if_neg (not_not.mpr hlen)] at h₂
      obtain ⟨name, _, h₃⟩ := result_bind_eq_ok.mp h₂
      obtain ⟨children, hchildren, h₄⟩ := result_bind_eq_ok.mp h₃
      rw [foldlM_has (fun _ _ _ hx => gatherChild_has hx) h₄ n]
      refine or_congr Iff.rfl ?_
      constructor
      · rintro ⟨c, hmem, hc⟩
        exact ⟨by rw [hdir, hd], hlen, children, hchildren, c, hmem, hc⟩
      · rintro ⟨_, _, children', hchildren', c, hmem, hc⟩
        obtain rfl : children = children' := Except.ok.inj (hchildren.symm.trans hchildren')
        exact ⟨c, hmem, hc⟩
    · rw [if_pos hlen] at h₂
      injection h₂ with heq
      exact hskip (fun hboth => hlen hboth.2) heq.symm
  · rw [if_pos hd] at h₂
    injection h₂ with heq
    exact hskip (fun hboth => hd hboth.1) heq.symm

/-- **The maps hold the inodes of the objects**, and nothing else. -/
theorem gathered_has {objects : List (Result ObjectDir)} {i : Inodes}
    (h : objects.foldlM gatherDir {} = .ok i) (n : UInt64) : i.Has n ↔ n ∈ objectInodes objects := by
  rw [foldlM_has (fun _ _ _ hx => gatherDir_has hx) h n]
  constructor
  · rintro (hempty | hb)
    · exact absurd hempty (Inodes.not_has_empty n)
    · exact hb
  · exact .inr

-- ── Every directory that can be read is checked ───────────────────────────────

/-- The entry can be read, and if it is an object its name has a suffix. -/
def ReadableChild (child : Result ObjectChild) : Prop :=
  ∃ c, child = .ok c ∧ ∃ metadata, c.metadata = .ok metadata ∧
    (metadata.isFile ∨ metadata.isSymlink → ∃ name, c.name = .utf8 name ∧ '.' ∈ name.toList)

/-- The entry can be read, and if it is a directory of objects so can what is in it. -/
def ReadableDir (child : Result ObjectDir) : Prop :=
  ∃ dir, child = .ok dir ∧ ∃ isDir, dir.isDir = .ok isDir ∧
    (isDir = true → dir.name.len = 2 → ∃ name, dir.name = .utf8 name ∧
      ∃ children, dir.entries = .ok children ∧ ∀ c ∈ children, ReadableChild c)

theorem splitOnce_of_mem {c : Char} {s : List Char} (h : c ∈ s) : ∃ parts, splitOnce c s = some parts := by
  induction s with
  | nil => exact absurd h (by simp)
  | cons a s ih =>
      rw [splitOnce]
      by_cases ha : a = c
      · exact ⟨([], s), if_pos ha⟩
      · obtain ⟨parts, hparts⟩ := ih ((List.mem_cons.mp h).resolve_left (fun heq => ha heq.symm))
        exact ⟨(a :: parts.1, parts.2), by rw [if_neg ha, hparts]; rfl⟩

/-- A loop whose steps succeed, succeeds. -/
theorem foldlM_ok {α β : Type} {f : β → α → Result β} {l : List α}
    (h : ∀ a ∈ l, ∀ b, ∃ b', f b a = .ok b') (b : β) : ∃ b', l.foldlM f b = .ok b' := by
  induction l generalizing b with
  | nil => exact ⟨b, rfl⟩
  | cons a l ih =>
      obtain ⟨b₁, hb₁⟩ := h a (List.mem_cons_self ..) b
      rw [List.foldlM_cons, hb₁, bind_ok_eq]
      exact ih (fun a' ha' => h a' (List.mem_cons_of_mem _ ha')) b₁

theorem gatherChild_ok {child : Result ObjectChild} (h : ReadableChild child) (pfx : String)
    (i : Inodes) : ∃ i', gatherChild pfx i child = .ok i' := by
  obtain ⟨c, rfl, metadata, hmeta, hname⟩ := h
  rw [gatherChild, bind_ok_eq, hmeta, bind_ok_eq]
  by_cases hkind : metadata.isFile ∨ metadata.isSymlink
  · obtain ⟨name, hc, hdot⟩ := hname hkind
    obtain ⟨parts, hparts⟩ := splitOnce_of_mem hdot
    rw [if_neg (not_not.mpr hkind), hc, OsName.toStr, bind_ok_eq, hparts, okOr_some, bind_ok_eq]
    exact ⟨_, rfl⟩
  · rw [if_pos hkind]
    exact ⟨i, rfl⟩

theorem gatherDir_ok {child : Result ObjectDir} (h : ReadableDir child) (i : Inodes) :
    ∃ i', gatherDir i child = .ok i' := by
  obtain ⟨dir, rfl, isDir, hdir, hrest⟩ := h
  rw [gatherDir, bind_ok_eq, hdir, bind_ok_eq]
  by_cases hd : isDir = true
  · rw [if_neg (not_not.mpr hd)]
    by_cases hlen : dir.name.len = 2
    · obtain ⟨name, hname, children, hchildren, hall⟩ := hrest hd hlen
      rw [if_neg (not_not.mpr hlen), hname, OsName.toStr, bind_ok_eq, gatherInodes, hchildren,
        bind_ok_eq]
      exact foldlM_ok (fun c hc i => gatherChild_ok (hall c hc) name i) i
    · rw [if_pos hlen]
      exact ⟨i, rfl⟩
  · rw [if_pos hd]
    exact ⟨i, rfl⟩

-- ── Completeness ──────────────────────────────────────────────────────────────

/-- The reported collisions are the large inodes whose truncation is a small one. -/
theorem Inodes.mem_colliding {i : Inodes} {n : UInt64} :
    n ∈ i.colliding ↔ ¬ FitsU32 n ∧ i.Has n ∧ ∃ m, FitsU32 m ∧ i.Has m ∧ m.toUInt32 = n.toUInt32 := by
  rw [colliding, List.mem_filter, ← ExtTreeMap.mem_iff_mem_keys_toList, decide_eq_true_iff]
  constructor
  · rintro ⟨hbig, hlittle⟩
    have hn : ¬ FitsU32 n := i.big_large n hbig
    refine ⟨hn, by rw [Has, if_neg hn]; exact hbig, n.toUInt32.toUInt64, ?_, ?_, ?_⟩
    · rw [FitsU32, UInt32.toNat_toUInt64]
      exact n.toUInt32.toNat_lt
    · have hfits : FitsU32 n.toUInt32.toUInt64 := by
        rw [FitsU32, UInt32.toNat_toUInt64]
        exact n.toUInt32.toNat_lt
      rw [Has, if_pos hfits, UInt32.toUInt32_toUInt64]
      exact hlittle
    · rw [UInt32.toUInt32_toUInt64]
  · rintro ⟨hn, hhas, m, hm, hhas', htrunc⟩
    rw [Has, if_neg hn] at hhas
    rw [Has, if_pos hm, htrunc] at hhas'
    exact ⟨hhas, hhas'⟩

/-- **What the check reports**, for every directory that can be read. -/
theorem checkInodeCollision_run {objects : List (Result ObjectDir)}
    (h : ∀ dir ∈ objects, ReadableDir dir) :
    ∃ check, checkInodeCollision (.ok objects) = .ok check ∧
      (∀ n, n ∈ check.collisions ↔ ¬ FitsU32 n ∧ n ∈ objectInodes objects ∧
        ∃ m, FitsU32 m ∧ m ∈ objectInodes objects ∧ m.toUInt32 = n.toUInt32) ∧
      (check.isOk = true ↔ ∀ n, n ∉ check.collisions) := by
  obtain ⟨i, hi⟩ := foldlM_ok (fun dir hdir i => gatherDir_ok (h dir hdir) i) {}
  refine ⟨{ inode64 := i.big.size, inode32 := i.little.size, collisions := .ofList i.colliding },
    ?_, ?_, ?_⟩
  · rw [checkInodeCollision, bind_ok_eq, hi, bind_ok_eq]
  · intro n
    show n ∈ ExtTreeSet.ofList i.colliding ↔ _
    rw [ExtTreeSet.mem_ofList, List.contains_iff_mem, Inodes.mem_colliding]
    simp only [gathered_has hi]
  · rw [InodeCheck.isOk, ExtTreeSet.isEmpty_iff, ExtTreeSet.eq_empty_iff_forall_not_mem]

/-- **The check is complete**: nothing is reported only if all inodes have different
    truncations, and each large inode that shares its truncation is reported. -/
def CollisionsComplete (objects : List (Result ObjectDir)) (check : InodeCheck) : Prop :=
  (check.isOk = true ↔ Set.InjOn UInt64.toUInt32 (objectInodes objects)) ∧
  ∀ n ∈ objectInodes objects, ¬ FitsU32 n →
    (∃ m ∈ objectInodes objects, m ≠ n ∧ m.toUInt32 = n.toUInt32) → n ∈ check.collisions

/-- Where two different large inodes have the same truncation, that truncation is the inode of
    an object too. -/
def LargeMeetSmall (objects : List (Result ObjectDir)) : Prop :=
  ∀ m ∈ objectInodes objects, ∀ n ∈ objectInodes objects, ¬ FitsU32 m → ¬ FitsU32 n → m ≠ n →
    m.toUInt32 = n.toUInt32 → ∃ k ∈ objectInodes objects, FitsU32 k ∧ k.toUInt32 = n.toUInt32

theorem collisions_complete_iff {objects : List (Result ObjectDir)}
    (h : ∀ dir ∈ objects, ReadableDir dir) :
    ∃ check, checkInodeCollision (.ok objects) = .ok check ∧
      (CollisionsComplete objects check ↔ LargeMeetSmall objects) := by
  obtain ⟨check, hrun, hmem, hempty⟩ := checkInodeCollision_run h
  refine ⟨check, hrun, ?_⟩
  constructor
  · rintro ⟨_, hcomplete⟩ m hm n hn _ hnbig hne htrunc
    obtain ⟨_, _, k, hk, hkin, hktrunc⟩ := (hmem n).mp (hcomplete n hn hnbig ⟨m, hm, hne, htrunc⟩)
    exact ⟨k, hkin, hk, hktrunc⟩
  · intro hmeet
    -- a large inode that shares its truncation shares it with a small one
    have hcomplete : ∀ n ∈ objectInodes objects, ¬ FitsU32 n →
        (∃ m ∈ objectInodes objects, m ≠ n ∧ m.toUInt32 = n.toUInt32) → n ∈ check.collisions := by
      rintro n hn hnbig ⟨m, hm, hne, htrunc⟩
      by_cases hmbig : FitsU32 m
      · exact (hmem n).mpr ⟨hnbig, hn, m, hmbig, hm, htrunc⟩
      · obtain ⟨k, hkin, hk, hktrunc⟩ := hmeet m hm n hn hmbig hnbig hne htrunc
        exact (hmem n).mpr ⟨hnbig, hn, k, hk, hkin, hktrunc⟩
    refine ⟨?_, hcomplete⟩
    rw [hempty]
    constructor
    · intro hnone m hm n hn htrunc
      by_contra hne
      by_cases hmbig : FitsU32 m
      · by_cases hnbig : FitsU32 n
        · exact hne (fits_inj hmbig hnbig htrunc)
        · exact hnone n (hcomplete n hn hnbig ⟨m, hm, hne, htrunc⟩)
      · exact hnone m (hcomplete m hm hmbig ⟨n, hn, fun heq => hne heq.symm, htrunc.symm⟩)
    · intro hinj n hn
      obtain ⟨hnbig, hnin, m, hm, hmin, htrunc⟩ := (hmem n).mp hn
      exact hnbig (hinj hmin hnin htrunc ▸ hm)

-- ── Two objects ───────────────────────────────────────────────────────────────

/-- Two content objects in one directory, with the given inodes. -/
def twoObjects (m n : UInt64) : List (Result ObjectDir) :=
  [.ok { name := .utf8 "0a", isDir := .ok true, entries := .ok [.ok (object "1f.file" m),
    .ok (object "2e.file" n)] }]
where
  object (name : String) (ino : UInt64) : ObjectChild :=
    { name := .utf8 name, metadata := .ok { isFile := true, isSymlink := false, ino } }

theorem readable_twoObjects (m n : UInt64) : ∀ dir ∈ twoObjects m n, ReadableDir dir := by
  intro dir hdir
  rw [twoObjects, List.mem_singleton] at hdir
  subst hdir
  refine ⟨_, rfl, true, rfl, fun _ _ => ⟨"0a", rfl, _, rfl, ?_⟩⟩
  intro c hc
  rcases List.mem_pair.mp hc with rfl | rfl
  · exact ⟨_, rfl, _, rfl, fun _ => ⟨"1f.file", rfl, by decide⟩⟩
  · exact ⟨_, rfl, _, rfl, fun _ => ⟨"2e.file", rfl, by decide⟩⟩

theorem mem_twoObjects {m n k : UInt64} : k ∈ objectInodes (twoObjects m n) ↔ k = m ∨ k = n := by
  constructor
  · rintro ⟨dir, hdir, _, _, children, hchildren, c, hc, metadata, hmeta, _, rfl⟩
    rw [twoObjects, List.mem_singleton] at hdir
    obtain rfl := Except.ok.inj hdir
    obtain rfl := Except.ok.inj hchildren
    rcases List.mem_pair.mp hc with heq | heq
    · obtain rfl := Except.ok.inj heq
      obtain rfl := Except.ok.inj hmeta
      exact .inl rfl
    · obtain rfl := Except.ok.inj heq
      obtain rfl := Except.ok.inj hmeta
      exact .inr rfl
  · intro h
    have hlen : (OsName.utf8 "0a").len = 2 := by decide
    refine ⟨_, by rw [twoObjects]; exact List.mem_singleton_self _, rfl, hlen, _, rfl, ?_⟩
    rcases h with rfl | rfl
    · exact ⟨_, List.mem_cons_self .., _, rfl, .inl rfl, rfl⟩
    · exact ⟨_, List.mem_cons_of_mem _ (List.mem_singleton_self _), _, rfl, .inl rfl, rfl⟩

/-- A large inode and a small one that collide are reported. -/
theorem smallCollision_complete : ∃ check,
    checkInodeCollision (.ok (twoObjects 5 4294967301)) = .ok check ∧
    CollisionsComplete (twoObjects 5 4294967301) check := by
  obtain ⟨check, hrun, hiff⟩ := collisions_complete_iff (readable_twoObjects 5 4294967301)
  refine ⟨check, hrun, hiff.mpr ?_⟩
  intro m hm n hn hmbig hnbig hne _
  rcases mem_twoObjects.mp hm with rfl | rfl
  · exact absurd (by decide) hmbig
  · rcases mem_twoObjects.mp hn with rfl | rfl
    · exact absurd (by decide) hnbig
    · exact absurd rfl hne

/-- **Two large inodes that collide are not reported.** -/
theorem largeCollision_missed : ∃ check,
    checkInodeCollision (.ok (twoObjects 4294967301 8589934597)) = .ok check ∧
    check.isOk = true ∧
    ¬ Set.InjOn UInt64.toUInt32 (objectInodes (twoObjects 4294967301 8589934597)) := by
  obtain ⟨check, hrun, hmem, hempty⟩ :=
    checkInodeCollision_run (readable_twoObjects 4294967301 8589934597)
  refine ⟨check, hrun, hempty.mpr ?_, ?_⟩
  · intro n hn
    obtain ⟨_, _, m, hm, hin, _⟩ := (hmem n).mp hn
    rcases mem_twoObjects.mp hin with rfl | rfl
    · exact absurd hm (by decide)
    · exact absurd hm (by decide)
  · intro hinj
    have heq := hinj (mem_twoObjects.mpr (.inl rfl)) (mem_twoObjects.mpr (.inr rfl)) (by decide)
    exact absurd heq (by decide)

end OstreeExt.Repair
