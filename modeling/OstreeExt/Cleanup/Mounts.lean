import OstreeExt.Cleanup.Exact

/-!
# Mount points inside the cleaned directories

`remove_all_on_mount_recurse` is to avoid traversing across mount points, but tells them by their
device alone; only what is mounted directly in a cleaned directory is recognised by `is_mountpoint`.
A directory mounted from the same device further down is traversed, and its contents are removed.

* **`KeepsMounts`** — whatever removals fail, no mount point and nothing below one is removed;
* **`Safe`** — in a directory to be cleaned, the files and empty directories at or below a mount
  point are shielded: by another device on the way to them, or because the mount point is seen;
* **`keepsMounts_iff`** — the first holds if and only if the second does of each directory that
  the four paths lead to, in the tree as it is when it is opened.
-/

namespace OstreeExt.Cleanup

open Exec

variable {host : Host} {rootdev : Nat} {L : View} {t : Tree} {d p q : List String} {n : String}
  {e : Entry}

-- ── The property ──────────────────────────────────────────────────────────────

/-- The path is that of a mount point, or below one. -/
def AtMount (L : View) (p : List String) : Prop :=
  ∃ m, m <+: p ∧ ∃ e, L m = some e ∧ e.mountRoot = true

/-- The host, with other removals that fail. -/
def Host.refusing (host : Host) (refuses : View → List String → Option String) : Host :=
  { host with refuses := refuses }

/-- The host, with no removals that fail. -/
def Host.permitting (host : Host) : Host := host.refusing fun _ _ => none

/-- Whatever removals fail, a run removes no mount point and nothing located below one. -/
def KeepsMounts (host : Host) (t : Tree) : Prop :=
  ∀ refuses p, AtMount t.lookup p →
    (finalState (prepareOstreeCommitIn (host.refusing refuses) t)).lookup p = t.lookup p

-- ── The condition ─────────────────────────────────────────────────────────────

/-- An entry with nothing below it: a file, or an empty directory. -/
def Leaf (L : View) (p : List String) : Prop := (∃ e, L p = some e) ∧ ∀ n, L (p ++ [n]) = none

/-- In the directory `d`, the entry at `q` or a directory above it is on another device than the
    root, or the one directly in `d` is a mount point and the code is told so. -/
def Shielded (host : Host) (rootdev : Nat) (L : View) (d q : List String) : Prop :=
  OnForeign L rootdev d q ∨ ∃ n, q.head? = some n ∧ SeesMount host L (d ++ [n])

/-- Each file and each empty directory of `d` that is at or below a mount point is shielded. -/
def Safe (host : Host) (rootdev : Nat) (L : View) (d : List String) : Prop :=
  ∀ q, q ≠ [] → Leaf L (d ++ q) → AtMount L (d ++ q) → Shielded host rootdev L d q

/-- The directories that the paths lead to are safe, each in the tree without what the clean-up of
    those before it takes out. -/
def SafeAlong (host : Host) (rootdev : Nat) : List (List String) → View → Prop
  | [], _ => True
  | path :: paths, L =>
      match host.openAt L [] path with
      | .ok (some d) =>
          Safe host rootdev L d ∧ SafeAlong host rootdev paths (leftOf L (Cleaned host rootdev L d))
      | .ok none => SafeAlong host rootdev paths L
      | .error _ => True

-- ── Leaves ────────────────────────────────────────────────────────────────────

/-- At or below each entry of a tree there is a leaf. -/
theorem exists_leaf (h : t.lookup p = some e) : ∃ x, Leaf t.lookup (p ++ x) := by
  -- the induction is on how far below the deepest path the entry is
  induction hk : t.depth - p.length using Nat.strong_induction_on generalizing p e with
  | h k ih =>
      by_cases hleaf : ∀ n, t.lookup (p ++ [n]) = none
      · exact ⟨[], ⟨e, by rw [List.append_nil, h]⟩, by rw [List.append_nil]; exact hleaf⟩
      · obtain ⟨n, hn⟩ := not_forall.mp hleaf
        obtain ⟨e', he'⟩ := Option.ne_none_iff_exists'.mp hn
        have hlen := FileTree.length_le_depth he'
        rw [List.length_append, List.length_singleton] at hlen
        obtain ⟨x, hx⟩ := ih (t.depth - (p ++ [n]).length)
          (by rw [List.length_append, List.length_singleton]; omega) he' rfl
        exact ⟨n :: x, by rw [List.append_cons]; exact hx⟩

theorem AtMount.below (h : AtMount L p) (hpq : p <+: q) : AtMount L q :=
  h.imp fun _ h => ⟨h.1.trans hpq, h.2⟩

/-- In a safe directory nothing at or below a mount point is taken out. -/
theorem Safe.not_cleaned (hsafe : Safe host rootdev t.lookup d) (hmount : AtMount t.lookup p)
    (hp : t.lookup p = some e) : ¬ Cleaned host rootdev t.lookup d p := by
  rintro ⟨n, ⟨x, rfl, hgoes⟩, hsees⟩
  obtain ⟨y, hleaf⟩ := exists_leaf hp
  rw [List.append_assoc] at hleaf
  have hbelow : n :: x <+: n :: x ++ y := List.prefix_append ..
  have hmount' : AtMount t.lookup (d ++ (n :: x ++ y)) :=
    hmount.below ((List.prefix_append_right_inj d).mpr hbelow)
  rcases hsafe (n :: x ++ y) (by simp) hleaf hmount' with ⟨m, hm, hmq, hF⟩ | ⟨c, hc, hsees'⟩
  · exact hgoes ⟨m, hm, hF, List.prefix_or_prefix_of_prefix hmq hbelow⟩
  · injection hc with hc
    exact hsees (hc ▸ hsees')

/-- A leaf that is not shielded is taken out. -/
theorem cleaned_leaf (hq : q ≠ []) (hleaf : Leaf t.lookup (d ++ q))
    (hopen : ¬ Shielded host rootdev t.lookup d q) : Cleaned host rootdev t.lookup d (d ++ q) := by
  obtain ⟨n, x, rfl⟩ := List.exists_cons_of_ne_nil hq
  refine ⟨n, ⟨x, rfl, ?_⟩, fun hsees => hopen (.inr ⟨n, rfl, hsees⟩)⟩
  rintro ⟨m, hm, hF, hmq | ⟨y, rfl⟩⟩
  · exact hopen (.inl ⟨m, hm, hmq, hF⟩)
  · rcases y with _ | ⟨c, y⟩
    · rw [List.append_nil] at hF
      exact hopen (.inl ⟨n :: x, hq, List.prefix_rfl, hF⟩)
    · -- nothing is below a leaf
      obtain ⟨e, he, _⟩ := hF
      rw [← List.append_assoc] at he
      obtain ⟨e', he'⟩ := FileTree.mem_readDir_iff.mp (FileTree.mem_readDir_of_below he)
      rw [hleaf.2 c] at he'
      exact absurd he' (by simp)

/-- In a safe directory, what is at or below a mount point survives any part of the clean-up. -/
theorem Safe.keeps {t' : Tree} (hsafe : Safe host rootdev t.lookup d)
    (hw : Within (Cleaned host rootdev t.lookup d) t.lookup t'.lookup) (hp : AtMount t.lookup p) :
    t'.lookup p = t.lookup p := by
  cases hlook : t.lookup p with
  | none =>
      rcases hw p with heq | ⟨_, hnone⟩
      · rw [heq, hlook]
      · exact hnone
  | some e => rw [hw.eq_of_not (hsafe.not_cleaned hp hlook), hlook]

-- ── Runs over some paths ──────────────────────────────────────────────────────

/-- Which removals fail has no part in where a path leads. -/
theorem openAt_refusing (refuses : View → List String → Option String) (L : View)
    (rest dir : List String) :
    (host.refusing refuses).openAt L dir rest = host.openAt L dir rest := by
  induction rest generalizing dir with
  | nil => rfl
  | cons n rest ih =>
      cases hn : L (dir ++ [n]) with
      | none => rw [openAt_absent hn, openAt_absent hn]
      | some e =>
          cases hdir : e.isDir with
          | true => rw [openAt_dir hn hdir, openAt_dir hn hdir, ih]
          | false =>
              rw [openAt_other hn hdir, openAt_other hn hdir]
              rfl

/-- However it ends, cleaning a directory takes out nothing but what it should. -/
theorem cleanSubdir_within (d : List String) (t : Tree) :
    Within (Cleaned host rootdev t.lookup d) t.lookup
      (finalState (cleanSubdir host rootdev d t)).lookup := by
  have hclears : Clears host (Cleaned host rootdev t.lookup d) _ _ t := cleanSubdir_clears d
  cases hrun : cleanSubdir host rootdev d t with
  | ok u t' =>
      rw [finalState_ok, (hclears.1 u t' hrun).1]
      exact within_leftOf
  | error s t' => exact (hclears.2 s t' hrun).1

/-- Of the second tree nothing is left but what is in the first. -/
def Shrinks (t t' : Tree) : Prop := Within (fun _ => True) t.lookup t'.lookup

/-- A run over paths takes entries out, and does nothing else. -/
theorem cleanPaths_shrinks (paths : List (List String)) :
    Steps Shrinks (forM paths (cleanPath host rootdev)) := by
  have hrefl : ∀ t, Shrinks t t := fun _ => Within.refl
  have htrans : ∀ t t' t'', Shrinks t t' → Shrinks t' t'' → Shrinks t t'' :=
    fun _ _ _ h h' => (h.trans h').mono fun _ _ _ _ => trivial
  refine Steps.loop hrefl htrans fun path _ t => ?_
  · cases hopen : host.openAt t.lookup [] path with
    | error s =>
        rw [cleanPath_error hopen]
        exact Within.refl
    | ok o =>
        cases o with
        | none =>
            rw [cleanPath_absent hopen]
            exact Within.refl
        | some d =>
            rw [cleanPath_opened hopen]
            exact (cleanSubdir_within d t).mono fun _ _ _ _ => trivial

/-- Where the condition holds, a run keeps what is at or below a mount point. -/
theorem SafeAlong.keeps {refuses : View → List String → Option String}
    (paths : List (List String)) (t : Tree) (h : SafeAlong host rootdev paths t.lookup)
    (hp : AtMount t.lookup p) :
    (finalState (forM paths (cleanPath (host.refusing refuses) rootdev) t)).lookup p =
      t.lookup p := by
  induction paths generalizing t with
  | nil => rfl
  | cons path paths ih =>
      rw [SafeAlong] at h
      rw [List.forM_cons]
      cases hopen : host.openAt t.lookup [] path with
      | error s =>
          rw [bind_of_error (cleanPath_error (by rw [openAt_refusing, hopen]))]
          rfl
      | ok o =>
          rw [hopen] at h
          cases o with
          | none =>
              rw [bind_of_ok (cleanPath_absent (by rw [openAt_refusing, hopen]))]
              exact ih t h hp
          | some d =>
              obtain ⟨hsafe, hrest⟩ := h
              have hclean : cleanPath (host.refusing refuses) rootdev path t = _ :=
                cleanPath_opened ((openAt_refusing refuses t.lookup path []).trans hopen)
              have hclears : Clears (host.refusing refuses) (Cleaned host rootdev t.lookup d) _
                (cleanSubdir (host.refusing refuses) rootdev d) t := cleanSubdir_clears d
              have hkeep : ∀ q, AtMount t.lookup q →
                  (finalState (cleanSubdir (host.refusing refuses) rootdev d t)).lookup q =
                    t.lookup q := fun q hq => hsafe.keeps (cleanSubdir_within d t) hq
              cases hrun : cleanSubdir (host.refusing refuses) rootdev d t with
              | error s t' =>
                  rw [bind_of_error (hclean.trans hrun), finalState_error]
                  rw [hrun] at hkeep
                  exact hkeep p hp
              | ok u t' =>
                  rw [bind_of_ok (hclean.trans hrun)]
                  rw [hrun, finalState_ok] at hkeep
                  -- the mount points themselves are still there, for the directories that follow
                  have hp' : AtMount t'.lookup p := by
                    obtain ⟨m, hmp, e, he, hmount⟩ := hp
                    exact ⟨m, hmp, e, (hkeep m ⟨m, List.prefix_rfl, e, he, hmount⟩).trans he, hmount⟩
                  rw [ih t' (by rw [(hclears.1 u t' hrun).1]; exact hrest) hp', hkeep p hp]

/-- Where a run without failing removals keeps that, the condition holds. -/
theorem safeAlong_of_keeps (paths : List (List String)) (t : Tree)
    (h : ∀ p, AtMount t.lookup p →
      (finalState (forM paths (cleanPath host.permitting rootdev) t)).lookup p =
        t.lookup p) :
    SafeAlong host rootdev paths t.lookup := by
  induction paths generalizing t with
  | nil => trivial
  | cons path paths ih =>
      rw [SafeAlong]
      cases hopen : host.openAt t.lookup [] path with
      | error s => trivial
      | ok o =>
          have hopen' : host.permitting.openAt t.lookup [] path = .ok o := by
            rw [Host.permitting, openAt_refusing, hopen]
          cases o with
          | none =>
              refine ih t fun p hp => ?_
              have hrun := h p hp
              rw [List.forM_cons, bind_of_ok (cleanPath_absent hopen')] at hrun
              exact hrun
          | some d =>
              obtain ⟨t₁, hrun₁, ht₁⟩ : ∃ t₁, cleanSubdir host.permitting rootdev d t = .ok ⟨⟩ t₁ ∧
                  t₁.lookup = leftOf t.lookup (Cleaned host rootdev t.lookup d) :=
                cleanSubdir_ok (fun _ _ => rfl) d
              have hrun : forM (path :: paths) (cleanPath host.permitting rootdev) t =
                  forM paths (cleanPath host.permitting rootdev) t₁ := by
                rw [List.forM_cons, bind_of_ok ((cleanPath_opened hopen').trans hrun₁)]
              rw [hrun] at h
              have hw : Within (Cleaned host rootdev t.lookup d) t.lookup t₁.lookup :=
                ht₁ ▸ within_leftOf
              have hlast : Shrinks t₁ (finalState (forM paths
                  (cleanPath host.permitting rootdev) t₁)) := cleanPaths_shrinks paths t₁
              refine ⟨?_, ?_⟩
              · -- a leaf that is not shielded would be gone at the end
                intro q hq hleaf hmount
                by_contra hopen
                have hgone : t₁.lookup (d ++ q) = none := by
                  rw [ht₁]
                  exact leftOf_of (cleaned_leaf hq hleaf hopen)
                obtain ⟨e, he⟩ := hleaf.1
                have hend := (h (d ++ q) hmount).trans he
                rw [hlast.eq_some hend] at hgone
                exact absurd hgone (by simp)
              · have hrest : SafeAlong host rootdev paths t₁.lookup := by
                  refine ih t₁ fun p hp => ?_
                  have hp' : AtMount t.lookup p :=
                    hp.imp fun _ hm => ⟨hm.1, hm.2.imp fun _ he => ⟨hw.eq_some he.1, he.2⟩⟩
                  cases hlook : t₁.lookup p with
                  | none =>
                      rcases hlast p with heq | ⟨_, hnone⟩
                      · rw [heq, hlook]
                      · exact hnone
                  | some e => rw [h p hp', hw.eq_some hlook]
                rw [ht₁] at hrest
                exact hrest

-- ── Paths that are opened by their own names ──────────────────────────────────

/-- Only what is inside or above the directory counts for its safety. -/
theorem safe_congr {L' : View} (h : ∀ p, p <+: d ∨ d <+: p → L' p = L p) :
    Safe host rootdev L' d ↔ Safe host rootdev L d := by
  have hbelow : ∀ x, L' (d ++ x) = L (d ++ x) := fun x => h _ (.inr (List.prefix_append ..))
  have hmount : ∀ q, AtMount L' (d ++ q) ↔ AtMount L (d ++ q) := by
    intro q
    refine exists_congr fun m => and_congr_right fun hm => ?_
    rw [h m (List.prefix_or_prefix_of_prefix hm (List.prefix_append d q))]
  have hleaf : ∀ q, Leaf L' (d ++ q) ↔ Leaf L (d ++ q) := by
    intro q
    rw [Leaf, Leaf, hbelow q]
    refine and_congr_right fun _ => forall_congr' fun n => ?_
    rw [List.append_assoc, hbelow (q ++ [n])]
  have hshield : ∀ q, Shielded host rootdev L' d q ↔ Shielded host rootdev L d q := by
    intro q
    refine or_congr (exists_congr fun m => ?_) (exists_congr fun n => ?_)
    · rw [Foreign, Foreign, hbelow m]
    · rw [SeesMount, SeesMount, hbelow [n]]
  refine forall_congr' fun q => ?_
  rw [hleaf, hmount, hshield]

/-- Nothing of an absent directory is at risk. -/
theorem safe_of_absent (hd : d ≠ []) (habsent : t.lookup d = none) :
    Safe host rootdev t.lookup d := by
  intro q _ hleaf _
  obtain ⟨e, he⟩ := hleaf.1
  obtain ⟨b, hb⟩ := FileTree.lookup_above he hd
  rw [habsent] at hb
  exact absurd hb (by simp)

/-- Of plain paths that are apart from each other, the condition is one about the tree that the run
    starts with. -/
theorem safeAlong_plain_iff {paths : List (List String)} (hne : ∀ path ∈ paths, path ≠ [])
    (hplain : ∀ path ∈ paths, Plain t.lookup path) (hapart : paths.Pairwise Apart) :
    SafeAlong host rootdev paths t.lookup ↔ ∀ d ∈ paths, Safe host rootdev t.lookup d := by
  induction paths generalizing t with
  | nil => exact iff_of_true trivial fun d hd => absurd hd List.not_mem_nil
  | cons path paths ih =>
      have hhead := hplain path (List.mem_cons_self ..)
      have hne' := fun d hd => hne d (List.mem_cons_of_mem _ hd)
      have hplain' := fun d hd => hplain d (List.mem_cons_of_mem _ hd)
      rw [List.pairwise_cons] at hapart
      rw [SafeAlong, List.forall_mem_cons]
      have hopened : host.openAt t.lookup [] path = .ok (some path) ∨ _ := openAt_plain path hhead
      rcases hopened with hopen | ⟨hopen, habsent⟩
      · rw [hopen]
        refine and_congr_right fun _ => ?_
        obtain ⟨t₁, _, ht₁⟩ : ∃ t₁, cleanSubdir host.permitting rootdev path t = .ok ⟨⟩ t₁ ∧
            t₁.lookup = leftOf t.lookup (Cleaned host rootdev t.lookup path) :=
          cleanSubdir_ok (fun _ _ => rfl) path
        rw [← ht₁]
        have hplain₁ : ∀ d ∈ paths, Plain t₁.lookup d :=
          fun d hd => (hplain' d hd).of_apart ht₁ (hapart.1 d hd)
        rw [ih hne' hplain₁ hapart.2]
        refine forall_congr' fun d => forall_congr' fun hd => safe_congr fun p hp => ?_
        exact lookup_of_apart ht₁ (hapart.1 d hd) hp
      · rw [hopen]
        exact (ih hne' hplain' hapart.2).trans
          (and_iff_right (safe_of_absent (hne path (List.mem_cons_self ..)) habsent)).symm

-- ── Whole runs ────────────────────────────────────────────────────────────────

/-- **The clean-up keeps what is at or below a mount point if and only if** the files and empty
    directories there are shielded, in each directory that it cleans. -/
theorem keepsMounts_iff (host : Host) (t : Tree) :
    KeepsMounts host t ↔ SafeAlong host host.rootDev forceCleanPaths t.lookup := by
  constructor
  · intro h
    exact safeAlong_of_keeps forceCleanPaths t fun p hp => h (fun _ _ => none) p hp
  · intro h refuses p hp
    exact h.keeps forceCleanPaths t hp

-- ── A mount below a directory ─────────────────────────────────────────────────

/-- A kernel that does not let mount points be removed. -/
def busyHost : Host :=
  sampleHost.refusing fun L p =>
    if (L p).any (fun e => e.mountRoot) then some "Device or resource busy" else none

/-- A directory of the same device is mounted below a directory in `tmp`. -/
def boundTmp : Tree :=
  FileTree.ofList
    [(["tmp"], sampleDir), (["tmp", "a"], sampleDir),
      (["tmp", "a", "mnt"], { kind := .directory, dev := 1, mountRoot := true }),
      (["tmp", "a", "mnt", "file"], sampleFile)]
    (by decide) (by decide) (by decide)

/-- **The file below the mount point is removed**, before the clean-up fails at the mount point. -/
theorem boundTmp_loses :
    busyHost.statx = true ∧ AtMount boundTmp.lookup ["tmp", "a", "mnt", "file"] ∧
    boundTmp.lookup ["tmp", "a", "mnt", "file"] = some sampleFile ∧
    (finalState (prepareOstreeCommitIn busyHost boundTmp)).lookup ["tmp", "a", "mnt", "file"] =
      none ∧
    ¬ KeepsMounts busyHost boundTmp := by
  have hmount : AtMount boundTmp.lookup ["tmp", "a", "mnt", "file"] :=
    ⟨["tmp", "a", "mnt"], by decide, { kind := .directory, dev := 1, mountRoot := true }, rfl, rfl⟩
  have hlost : (finalState (prepareOstreeCommitIn busyHost boundTmp)).lookup
      ["tmp", "a", "mnt", "file"] = none := by
    rfl
  refine ⟨rfl, hmount, rfl, hlost, fun hkeeps => ?_⟩
  have hkept := hkeeps busyHost.refuses _ hmount
  exact absurd (hlost.symm.trans hkept) (by decide)

end OstreeExt.Cleanup
