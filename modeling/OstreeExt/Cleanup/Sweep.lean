import OstreeExt.Cleanup.Model

/-!
# What the clean-up takes out

The recursion of `remove_all_on_mount_recurse` and the flag that it returns have one description:
of the directory `dir` it takes out all that is not **`Spared`**, that is, all but the entries of
another device, what is below them, and the directories above them.

* **`removeAllOnMountRecurse_clears`** — by induction on the recursion, with the loop rule for each
  directory;
* **`cleanSubdir_clears`** — the same of the directories that are cleaned, with the mount points
  that are in them (`Cleaned`).
-/

namespace OstreeExt.Cleanup

open Exec

variable {host : Host} {rootdev : Nat} {L : View} {t : Tree} {dir p q x : List String} {n : String}
  {e : Entry}

-- ── What has to stay ──────────────────────────────────────────────────────────

/-- There is an entry at the path, on another device than the root. -/
def Foreign (L : View) (rootdev : Nat) (p : List String) : Prop :=
  ∃ e, L p = some e ∧ e.dev ≠ rootdev

/-- In the directory `dir`, an entry of another device is at `q`, or above or below it. -/
def Spared (L : View) (rootdev : Nat) (dir q : List String) : Prop :=
  Pinned (fun m => Foreign L rootdev (dir ++ m)) q

theorem spared_cons_iff :
    Spared L rootdev dir (n :: q) ↔
      Foreign L rootdev (dir ++ [n]) ∨ Spared L rootdev (dir ++ [n]) q := by
  rw [Spared, pinned_cons_iff, Spared]
  refine or_congr Iff.rfl (pinned_congr fun m => ?_)
  rw [List.append_cons]

/-- A directory has to stay when something in it has to. -/
theorem spared_nil_iff : Spared L rootdev dir [] ↔ ∃ n, Spared L rootdev dir [n] :=
  pinned_nil_iff_exists

/-- A directory of a tree has to stay when one of the entries it lists has to. -/
theorem spared_nil_iff_listed :
    Spared t.lookup rootdev p [] ↔ ∃ c ∈ t.readDir p, Spared t.lookup rootdev p [c] := by
  constructor
  · rw [Spared, pinned_nil_iff]
    rintro ⟨m, hm, hF⟩
    rcases m with _ | ⟨c, m⟩
    · exact absurd rfl hm
    · obtain ⟨e, he, _⟩ := id hF
      exact ⟨c, FileTree.mem_readDir_of_below he, c :: m, by simp, hF, .inr (by simp)⟩
  · rintro ⟨c, _, hc⟩
    exact spared_nil_iff.mpr ⟨c, hc⟩

/-- Only what is below a directory counts for it. -/
theorem spared_congr {L' : View} (h : ∀ m, L' (dir ++ m) = L (dir ++ m)) :
    Spared L' rootdev dir q ↔ Spared L rootdev dir q :=
  pinned_congr fun m => by rw [Foreign, Foreign, h m]

/-- Nothing below what is no directory has to stay. -/
theorem not_spared_file (h : t.lookup p = some e) (hfile : e.isDir = false) :
    ¬ Spared t.lookup rootdev p [] := by
  rw [Spared, pinned_nil_iff]
  rintro ⟨m, hm, e', he', _⟩
  obtain ⟨b, hb, hdir⟩ := FileTree.isDir_above he' (FileTree.ne_nil_of_lookup h) hm
  rw [h] at hb
  injection hb with hb
  rw [hb, hdir] at hfile
  exact absurd hfile (by simp)

-- ── The calls ─────────────────────────────────────────────────────────────────

/-- The error of a removal that the host refuses. -/
def Refused (host : Host) (e : Stop) : Prop :=
  ∃ L p msg, host.refuses L p = some msg ∧ e = .err msg

/-- Started on the tree `t`, the program takes out `S`, or stops on the way at a removal that the
    host refuses. -/
abbrev Clears (host : Host) {α : Type} (S : List String → Prop) (φ : α → Prop)
    (prog : EStateM Stop Tree α) (t : Tree) : Prop :=
  Removes FileTree.lookup (Refused host) S φ prog t

theorem metadata_run (h : t.lookup p = some e) : metadata p t = .ok e t := by
  unfold metadata
  rw [bind_of_ok (get_run t), h]
  rfl

theorem readDir_run (h : t.lookup p = some e) (hdir : e.isDir = true) :
    readDir p t = .ok (t.readDir p) t := by
  unfold readDir
  rw [bind_of_ok (metadata_run h), hdir]
  rfl

theorem unlink_clears (h : t.readDir p = []) :
    Clears host (fun k => k = p) (fun _ => True) (unlink host p) t := by
  unfold unlink
  refine Removes.bind_of_ok (get_run t) ?_
  cases hr : host.refuses t.lookup p with
  | some msg => exact Removes.throw ⟨t.lookup, p, msg, hr, rfl⟩
  | none =>
      refine Removes.update (funext fun q => ?_)
      rw [FileTree.lookup_remove h]
      by_cases hq : q = p
      · rw [if_pos hq]
        exact (leftOf_of (S := fun k => k = p) hq).symm
      · rw [if_neg hq]
        exact (leftOf_of_not (S := fun k => k = p) hq).symm

theorem removeFile_clears (h : t.lookup p = some e) (hfile : e.isDir = false) :
    Clears host (fun k => k = p) (fun _ => True) (removeFile host p) t := by
  unfold removeFile
  refine Removes.bind_of_ok (metadata_run h) ?_
  rw [hfile]
  exact unlink_clears (FileTree.readDir_eq_nil h hfile)

theorem removeDir_clears (h : t.lookup p = some e) (hdir : e.isDir = true)
    (hempty : t.readDir p = []) :
    Clears host (fun k => k = p) (fun _ => True) (removeDir host p) t := by
  unfold removeDir
  refine Removes.bind_of_ok (readDir_run h hdir) ?_
  rw [hempty]
  exact unlink_clears hempty

-- ── The recursion ─────────────────────────────────────────────────────────────

/-- What is taken out of the directory `dir` through its entry `n`. -/
def ClearedIn (L : View) (rootdev : Nat) (dir : List String) (n : String) (k : List String) :
    Prop :=
  ∃ x, k = dir ++ n :: x ∧ ¬ Spared L rootdev dir (n :: x)

/-- What is taken out of the tree with the directory `dir`. -/
def ClearedAll (L : View) (rootdev : Nat) (dir k : List String) : Prop :=
  ∃ x, k = dir ++ x ∧ ¬ Spared L rootdev dir x

/-- Only what is at or below the entry counts for what is taken out through it. -/
theorem clearedIn_congr {L' : View} (h : ∀ x, L' (dir ++ n :: x) = L (dir ++ n :: x))
    (k : List String) : ClearedIn L' rootdev dir n k ↔ ClearedIn L rootdev dir n k := by
  have hbelow : ∀ x, L' (dir ++ [n] ++ x) = L (dir ++ [n] ++ x) := by
    intro x
    rw [← List.append_cons, h x]
  refine exists_congr fun x => and_congr_right fun _ => not_congr ?_
  rw [spared_cons_iff, spared_cons_iff, Foreign, Foreign, h [], spared_congr hbelow]

/-- When the entries of some names are gone, those of another one are untouched. -/
theorem lookup_other {S : String → List String → Prop} {pre post : List String} {t' : Tree}
    (hS : ∀ c k, S c k → ∃ x, k = dir ++ c :: x)
    (ht' : t'.lookup = leftOf t.lookup (fun k => ∃ c ∈ pre, S c k))
    (hl : t.readDir dir = pre ++ n :: post) (x : List String) :
    t'.lookup (dir ++ n :: x) = t.lookup (dir ++ n :: x) := by
  rw [ht', leftOf_of_not]
  rintro ⟨c, hc, hk⟩
  obtain ⟨y, hy⟩ := hS c _ hk
  injection List.append_cancel_left hy with hn _
  have hnodup := t.nodup_readDir dir
  rw [hl, List.nodup_append] at hnodup
  exact hnodup.2.2 c hc n (List.mem_cons_self ..) hn.symm

/-- A file of the root's device goes, and there is nothing below it. -/
theorem removeFile_clearedIn (h : t.lookup (dir ++ [n]) = some e) (hdev : e.dev = rootdev)
    (hfile : e.isDir = false) :
    Clears host (ClearedIn t.lookup rootdev dir n) (fun _ => True)
      (removeFile host (dir ++ [n])) t := by
  refine (removeFile_clears h hfile).congr fun k e' hk => ?_
  constructor
  · rintro rfl
    refine ⟨[], rfl, ?_⟩
    rw [spared_cons_iff]
    rintro (⟨e'', he'', hne⟩ | hspared)
    · rw [h] at he''
      injection he'' with he''
      exact hne (he'' ▸ hdev)
    · exact not_spared_file h hfile hspared
  · rintro ⟨x, rfl, _⟩
    rw [List.append_cons] at hk ⊢
    by_cases hx : x = []
    · rw [hx, List.append_nil]
    · obtain ⟨b, hb, hdir⟩ := FileTree.isDir_above hk (by simp) hx
      rw [h] at hb
      injection hb with hb
      rw [hb, hdir] at hfile
      exact absurd hfile (by simp)

/-- What is taken out with a directory, seen from the one it is in. -/
theorem clearedAll_iff_clearedIn (hdev : ¬ Foreign L rootdev (dir ++ [n])) (k : List String) :
    ClearedAll L rootdev (dir ++ [n]) k ↔ ClearedIn L rootdev dir n k := by
  refine exists_congr fun x => ?_
  rw [spared_cons_iff, ← List.append_cons]
  exact and_congr_right fun _ => not_congr (iff_or_self.mpr fun h => absurd h hdev)

theorem not_foreign (h : L p = some e) (hdev : e.dev = rootdev) : ¬ Foreign L rootdev p := by
  rintro ⟨e', he', hne⟩
  rw [h] at he'
  injection he' with he'
  exact hne (he' ▸ hdev)

/-- A tree under which `recurse` does what it should: no path below `p` is longer than `fuel`. -/
def Shallow (t : Tree) (fuel : Nat) (p : List String) : Prop :=
  ∀ x e, t.lookup (p ++ x) = some e → x.length < fuel

/-- What the recursion does, stated of the function that a round calls. -/
def Recurses (host : Host) (rootdev fuel : Nat) (recurse : List String → EStateM Stop Tree Bool) :
    Prop :=
  ∀ (t : Tree) (p : List String) (e : Entry), t.lookup p = some e → e.isDir = true →
    Shallow t fuel p →
    Clears host (ClearedAll t.lookup rootdev p)
      (fun skipped => skipped = true ↔ Spared t.lookup rootdev p []) (recurse p) t

/-- A directory of the root's device is taken out by the recursion, also when entries of other
    names are gone. -/
theorem recurse_clearedIn {fuel : Nat} {recurse : List String → EStateM Stop Tree Bool}
    (hrec : Recurses host rootdev fuel recurse) {t' : Tree}
    (hsame : ∀ x, t'.lookup (dir ++ n :: x) = t.lookup (dir ++ n :: x))
    (h : t.lookup (dir ++ [n]) = some e) (hdev : e.dev = rootdev) (hdir : e.isDir = true)
    (hdeep : Shallow t fuel (dir ++ [n])) :
    Clears host (ClearedIn t.lookup rootdev dir n)
      (fun skipped => skipped = true ↔ Spared t.lookup rootdev dir [n])
      (recurse (dir ++ [n])) t' := by
  have hbelow : ∀ x, t'.lookup (dir ++ [n] ++ x) = t.lookup (dir ++ [n] ++ x) := by
    intro x
    rw [← List.append_cons, hsame x]
  have hfor := not_foreign h hdev
  have hshallow : Shallow t' fuel (dir ++ [n]) :=
    fun x e' hx => hdeep x e' (by rw [← hbelow x]; exact hx)
  have hcall := hrec t' (dir ++ [n]) e (by rw [hsame []]; exact h) hdir hshallow
  have hflag : ∀ skipped : Bool, (skipped = true ↔ Spared t'.lookup rootdev (dir ++ [n]) []) →
      (skipped = true ↔ Spared t.lookup rootdev dir [n]) := by
    intro skipped hskipped
    rw [hskipped, spared_congr hbelow, spared_cons_iff]
    exact (or_iff_right hfor).symm
  have hfor' : ¬ Foreign t'.lookup rootdev (dir ++ [n]) :=
    not_foreign (by rw [hsame []]; exact h) hdev
  refine (hcall.weaken hflag).congr fun k _ _ => ?_
  rw [clearedAll_iff_clearedIn hfor', clearedIn_congr hsame]

/-- One round: the entry of the name is taken out as far as it may be, and the flag says whether
    it or one before it has to stay. -/
theorem removeAllRound_clears {fuel : Nat} {recurse : List String → EStateM Stop Tree Bool}
    (hrec : Recurses host rootdev fuel recurse) {t' : Tree} {pre : List String} {skipped : Bool}
    (hsame : ∀ x, t'.lookup (dir ++ n :: x) = t.lookup (dir ++ n :: x))
    (h : t.lookup (dir ++ [n]) = some e) (hdeep : Shallow t fuel (dir ++ [n]))
    (hskipped : skipped = true ↔ ∃ c ∈ pre, Spared t.lookup rootdev dir [c]) :
    Clears host (ClearedIn t.lookup rootdev dir n)
      (fun skipped => skipped = true ↔ ∃ c ∈ pre ++ [n], Spared t.lookup rootdev dir [c])
      (removeAllRound host rootdev recurse dir skipped n) t' := by
  have h' : t'.lookup (dir ++ [n]) = some e := by rw [hsame [], h]
  have hexists : (∃ c ∈ pre ++ [n], Spared t.lookup rootdev dir [c]) ↔
      (∃ c ∈ pre, Spared t.lookup rootdev dir [c]) ∨ Spared t.lookup rootdev dir [n] := by
    simp [or_and_right, exists_or]
  unfold removeAllRound
  refine Removes.bind_of_ok (metadata_run h') ?_
  by_cases hdev : e.dev = rootdev
  · rw [if_neg (not_not.mpr hdev)]
    cases hdir : e.isDir with
    | true =>
        have hcall := recurse_clearedIn hrec hsame h hdev hdir hdeep
        refine hcall.returning fun below hbelow => ?_
        rw [Bool.or_eq_true, hskipped, hbelow, hexists]
    | false =>
        have hcall : Clears host (ClearedIn t.lookup rootdev dir n) (fun _ => True)
            (removeFile host (dir ++ [n])) t' :=
          (removeFile_clearedIn h' hdev hdir).congr fun k _ _ => clearedIn_congr hsame k
        refine hcall.returning fun _ _ => ?_
        rw [hskipped, hexists, or_iff_left]
        rw [spared_cons_iff]
        rintro (hfor | hspared)
        · exact not_foreign h hdev hfor
        · exact not_spared_file h hdir hspared
  · rw [if_pos hdev]
    have hspared : ∀ x, Spared t.lookup rootdev dir (n :: x) :=
      fun x => spared_cons_iff.mpr (.inl ⟨e, h, hdev⟩)
    refine Removes.pure ?_ ?_
    · rw [hexists]
      exact iff_of_true rfl (.inr (hspared []))
    · rintro k _ _ ⟨x, _, hx⟩
      exact hx (hspared x)

/-- **The recursion takes out all that does not have to stay**, and its result says whether the
    directory itself has to. -/
theorem removeAllOnMountRecurse_clears (fuel : Nat) :
    Recurses host rootdev fuel (removeAllOnMountRecurse host rootdev fuel) := by
  induction fuel with
  | zero =>
      intro t p e h _ hdeep
      have hlt := hdeep [] e (by rw [List.append_nil]; exact h)
      exact absurd hlt (Nat.not_lt_zero _)
  | succ fuel ih =>
      intro t p e h hdir hdeep
      have hp := FileTree.ne_nil_of_lookup h
      unfold removeAllOnMountRecurse
      refine Removes.bind_of_ok (readDir_run h hdir) ?_
      -- the loop: the flag says whether one of the entries so far has to stay
      have hloop : Clears host (fun k => ∃ c ∈ t.readDir p, ClearedIn t.lookup rootdev p c k)
          (fun skipped => skipped = true ↔ ∃ c ∈ t.readDir p, Spared t.lookup rootdev p [c])
          ((t.readDir p).foldlM
            (removeAllRound host rootdev (removeAllOnMountRecurse host rootdev fuel) p) false) t := by
        refine Removes.fold (φ := fun pre skipped =>
          (skipped = true ↔ ∃ c ∈ pre, Spared t.lookup rootdev p [c])) (by simp) ?_
        intro pre c post skipped t' hl hskipped ht'
        have hc : c ∈ t.readDir p := by
          rw [hl]
          simp
        obtain ⟨ec, hec⟩ := FileTree.mem_readDir_iff.mp hc
        have hsame := lookup_other (fun c k hk => hk.imp fun x hx => hx.1) ht' hl
        refine removeAllRound_clears ih hsame hec (fun x e' hx => ?_) hskipped
        rw [← List.append_cons] at hx
        exact Nat.lt_of_succ_lt_succ (hdeep (c :: x) e' hx)
      refine (hloop.bind (T := fun k => k = p ∧ ¬ Spared t.lookup rootdev p [])
        fun skipped t' hskipped ht' => ?_).congr fun k e' hk => ?_
      · -- then the directory itself, where nothing in it stayed
        rw [← spared_nil_iff_listed] at hskipped
        have hp' : t'.lookup p = some e := by
          rw [ht', leftOf_of_not, h]
          rintro ⟨c, _, x, hx, _⟩
          exact absurd (List.append_right_eq_self.mp hx.symm) (by simp)
        cases skipped with
        | true =>
            have hstays := hskipped.mp rfl
            exact Removes.pure hskipped fun _ _ _ hk => hk.2 hstays
        | false =>
            have hgoes : ¬ Spared t.lookup rootdev p [] :=
              fun hstays => absurd (hskipped.mpr hstays) (by simp)
            have hempty : t'.readDir p = [] := by
              rw [List.eq_nil_iff_forall_not_mem]
              intro c hc
              obtain ⟨a, ha⟩ := FileTree.mem_readDir_iff.mp hc
              rw [ht', leftOf_eq_some_iff] at ha
              refine ha.1 ⟨c, FileTree.mem_readDir_iff.mpr ⟨a, ha.2⟩, [], rfl, ?_⟩
              exact fun hc => hgoes (spared_nil_iff.mpr ⟨c, hc⟩)
            have hdel : Clears host (fun k => k = p ∧ ¬ Spared t.lookup rootdev p []) (fun _ => True)
                (removeDir host p) t' :=
              (removeDir_clears hp' hdir hempty).congr fun k _ _ => (and_iff_left hgoes).symm
            exact hdel.returning fun _ _ => hskipped
      · constructor
        · rintro (⟨c, _, x, rfl, hx⟩ | ⟨rfl, hgoes⟩)
          · exact ⟨c :: x, rfl, hx⟩
          · exact ⟨[], (List.append_nil k).symm, hgoes⟩
        · rintro ⟨x, rfl, hx⟩
          rcases x with _ | ⟨c, x⟩
          · exact .inr ⟨List.append_nil p, hx⟩
          · exact .inl ⟨c, FileTree.mem_readDir_of_below hk, x, rfl, hx⟩

-- ── The directories that are cleaned ──────────────────────────────────────────

/-- The code is told that something is mounted at the path. -/
def SeesMount (host : Host) (L : View) (p : List String) : Prop :=
  host.statx = true ∧ ∃ e, L p = some e ∧ e.mountRoot = true

/-- What cleaning the directory `dir` takes out: what does not have to stay, unless it is at or
    below a mount point directly in `dir`. -/
def Cleaned (host : Host) (rootdev : Nat) (L : View) (dir k : List String) : Prop :=
  ∃ n, ClearedIn L rootdev dir n k ∧ ¬ SeesMount host L (dir ++ [n])

theorem isMountpoint_iff (h : L p = some e) :
    (isMountpoint host e).getD false = true ↔ SeesMount host L p := by
  rw [isMountpoint, SeesMount, h]
  cases host.statx with
  | true => simp
  | false => simp

/-- One round of the loop over a directory that is cleaned. -/
theorem cleanSubdirRound_clears (h : t.lookup (dir ++ [n]) = some e) :
    Clears host (fun k => ClearedIn t.lookup rootdev dir n k ∧ ¬ SeesMount host t.lookup (dir ++ [n]))
      (fun _ => True) (cleanSubdirRound host rootdev dir n) t := by
  unfold cleanSubdirRound
  refine Removes.bind_of_ok (metadata_run h) ?_
  by_cases hdev : e.dev = rootdev
  · rw [if_neg (not_not.mpr hdev)]
    by_cases hmount : (isMountpoint host e).getD false = true
    · rw [if_pos hmount]
      refine Removes.pure trivial fun k _ _ hk => hk.2 ((isMountpoint_iff h).mp hmount)
    · rw [if_neg hmount]
      have hno : ¬ SeesMount host t.lookup (dir ++ [n]) :=
        fun hsees => hmount ((isMountpoint_iff h).mpr hsees)
      have hall : Clears host (ClearedIn t.lookup rootdev dir n) (fun _ => True)
          (do
            if e.isDir then
              let t ← get
              let _ ← removeAllOnMountRecurse host rootdev (t.depth + 1) (dir ++ [n])
            else
              removeFile host (dir ++ [n])) t := by
        cases hdir : e.isDir with
        | true =>
            refine Removes.bind_of_ok (get_run t) ?_
            have hdeep : Shallow t (t.depth + 1) (dir ++ [n]) := by
              intro x e' hx
              have hlen := FileTree.length_le_depth hx
              rw [List.length_append] at hlen
              omega
            have hrec : Recurses host rootdev (t.depth + 1) _ := removeAllOnMountRecurse_clears _
            exact (recurse_clearedIn hrec (fun _ => rfl) h hdev hdir hdeep).returning
              fun _ _ => trivial
        | false => exact removeFile_clearedIn h hdev hdir
      exact hall.congr fun k _ _ => (and_iff_left hno).symm
  · rw [if_pos hdev]
    refine Removes.pure trivial ?_
    rintro k _ _ ⟨⟨x, _, hx⟩, _⟩
    exact hx (spared_cons_iff.mpr (.inl ⟨e, h, hdev⟩))

/-- **Cleaning a directory takes out all that does not have to stay**, but for what is mounted
    directly in it. -/
theorem cleanSubdir_clears (dir : List String) :
    Clears host (Cleaned host rootdev t.lookup dir) (fun _ => True)
      (cleanSubdir host rootdev dir) t := by
  unfold cleanSubdir
  refine Removes.bind_of_ok (a := t.readDir dir) rfl ?_
  have hloop : Clears host (fun k => ∃ n ∈ t.readDir dir,
      ClearedIn t.lookup rootdev dir n k ∧ ¬ SeesMount host t.lookup (dir ++ [n])) (fun _ => True)
      (forM (t.readDir dir) (cleanSubdirRound host rootdev dir)) t := by
    refine Removes.loop
      (S := fun n k => ClearedIn t.lookup rootdev dir n k ∧ ¬ SeesMount host t.lookup (dir ++ [n])) ?_
    intro pre n post t' hl ht'
    have hn : n ∈ t.readDir dir := by
      rw [hl]
      simp
    obtain ⟨e, he⟩ := FileTree.mem_readDir_iff.mp hn
    have hsame := lookup_other (fun c k hk => hk.1.imp fun x hx => hx.1) ht' hl
    have he' : t'.lookup (dir ++ [n]) = some e := by rw [hsame [], he]
    refine (cleanSubdirRound_clears he').congr fun k _ _ => ?_
    rw [clearedIn_congr hsame, SeesMount, SeesMount, hsame []]
  refine hloop.congr fun k e hk => ?_
  constructor
  · rintro ⟨n, _, hn⟩
    exact ⟨n, hn⟩
  · rintro ⟨n, hn⟩
    obtain ⟨x, rfl, _⟩ := hn.1
    exact ⟨n, FileTree.mem_readDir_of_below hk, hn⟩

end OstreeExt.Cleanup
