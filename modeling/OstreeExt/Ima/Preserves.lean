import Mathlib.Logic.Encodable.Basic
import Mathlib.Logic.Equiv.List
import OstreeExt.Ima.Signed
import OstreeExt.Table

/-!
# Signing keeps the commit

The commit that `ima_sign` writes differs from the one it read in its root alone; its tree has
the same paths and the same directory metadata, and each file is kept but for its signature.  A
second run over it finds every file signed, and writes what is there.
-/

namespace OstreeExt

open Std (ExtTreeMap)
open Exec

variable {lib : Libostree} {variant : Codec (List (Bytes × Bytes))} {w : CommitRewriter lib variant}

-- ── Runs that come to an end ──

/-- `evmctl` makes a signature, whenever it is run. -/
def CommitRewriter.Answers (w : CommitRewriter lib variant) : Prop :=
  ∀ call key algorithm instream, ∃ sig, w.evmctl call key algorithm instream = .ok sig

namespace CommitRewriter

theorem mapEntry_ends (hanswers : w.Answers) {o : Objects} {e : String × Checksum}
    (he : e.2 ∈ o.files) :
    Ends (fun s => o.Keeps s.repo.toObjects) (w.mapEntry e)
      (fun _ s' => True ∧ o.Keeps s'.repo.toObjects) := by
  intro s hs
  obtain ⟨x, hx⟩ := ExtTreeMap.mem_iff_lookup.mp he
  have hstored := hs.files _ _ hx
  have hruns : ∃ e' s', w.mapEntry e s = .ok e' s' := by
    rw [mapEntry, bind_of_ok (get_run s)]
    cases hmemo : s.rewrittenFiles[e.2]? with
    | some mapped => exact ⟨_, _, rfl⟩
    | none =>
        by_cases hleft : LeftAlone variant w.ima.overwrite x
        · show ∃ e' s', (w.mapFile e.2 >>= _ : RewriteM _) s = .ok e' s'
          rw [bind_of_ok (mapFile_of_leftAlone hstored hleft)]
          exact ⟨_, _, rfl⟩
        · obtain ⟨sig, hsig⟩ := hanswers s.calls w.ima.key w.ima.algorithm x.instream
          show ∃ e' s', (w.mapFile e.2 >>= _ : RewriteM _) s = .ok e' s'
          rw [bind_of_ok (mapFile_signs hstored hleft hsig)]
          exact ⟨_, _, rfl⟩
  obtain ⟨e', s', hrun⟩ := hruns
  exact ⟨e', s', hrun, trivial, hs.trans (mapEntry_later hrun).objects⟩

/-- **With signatures that are made**, a tree that is stored is rewritten. -/
theorem mapDirtree_ends (hanswers : w.Answers) {o : Objects} {n : Nat} {c : Checksum}
    (hdepth : o.DepthLt n c) (hstored : ∀ ty x, o.Reaches c ty x → o.Has ty x) :
    Ends (fun s => o.Keeps s.repo.toObjects) (w.mapDirtree n c)
      (fun _ s' => o.Keeps s'.repo.toObjects) := by
  induction n generalizing c with
  | zero => exact hdepth.elim
  | succ n ih =>
      intro s hs
      obtain ⟨d, hd⟩ := ExtTreeMap.mem_iff_lookup.mp (hstored .dirTree c (.self c))
      have hentry : ∀ e ∈ d.files, Ends (fun s => o.Keeps s.repo.toObjects) (w.mapEntry e)
          (fun _ s' => True ∧ o.Keeps s'.repo.toObjects) := by
        intro e he
        exact mapEntry_ends hanswers (hstored .file e.2 (.file hd he))
      obtain ⟨files, s₁, hfiles, _, hs₁⟩ := Ends.mapM hentry s hs
      have hsub : ∀ item ∈ d.dirs, Ends (fun s => o.Keeps s.repo.toObjects) (w.mapSubdir n item)
          (fun _ s' => True ∧ o.Keeps s'.repo.toObjects) := by
        intro item hitem t ht
        obtain ⟨mapped, t', hrun, ht'⟩ := ih (hdepth d hd item hitem)
          (fun ty x hx => hstored ty x (.sub hd hitem hx)) t ht
        exact ⟨_, t', mapSubdir_run hrun, trivial, ht'⟩
      obtain ⟨dirs, s₂, hdirs, _, hs₂⟩ := Ends.mapM hsub s₁ hs₁
      refine ⟨_, _, mapDirtree_run (hs.dirtrees _ _ hd) hfiles hdirs, ?_⟩
      exact hs₂.trans (Rewriting.later_storedTree lib _ _).objects

end CommitRewriter

-- ── Signing again ──

/-- A tree in which every file is a symbolic link or has a signature, and every directory is
    stored under its checksum. -/
def Settled (lib : Libostree) (variant : Codec (List (Bytes × Bytes))) (o : Objects) :
    Nat → Checksum → Prop
  | 0, _ => False
  | n + 1, c => ∃ d, o.dirtrees[c]? = some d ∧ lib.dirtreeChecksum d = c ∧
      (∀ f ∈ d.files, ∃ x, o.files[f.2]? = some x ∧ LeftAlone variant false x) ∧
      ∀ s ∈ d.dirs, Settled lib variant o n s.2.1

theorem Rewrites.settled {o : Objects} {M : Checksum → Checksum → Prop} {n : Nat} {c c' : Checksum}
    (h : Rewrites lib o M n c c')
    (hM : ∀ x y, M x y → ∃ f, o.files[y]? = some f ∧ LeftAlone variant false f) :
    Settled lib variant o n c' := by
  induction n generalizing c c' with
  | zero => exact h.elim
  | succ n ih =>
      obtain ⟨d, d', _, hd', hsum, hfiles, hdirs⟩ := h
      refine ⟨d', hd', hsum, ?_, ?_⟩
      · intro f hf
        obtain ⟨f₀, _, _, hmapped⟩ := forall₂_mem_right hfiles hf
        exact hM _ _ hmapped
      · intro s hs
        obtain ⟨s₀, _, _, _, hbelow⟩ := forall₂_mem_right hdirs hs
        exact ih hbelow

/-- A run that has changed nothing. -/
def Unchanged (o : Objects) (s : Rewriting) : Prop :=
  s.repo.toObjects = o ∧ s.rewrittenFiles = ∅

namespace CommitRewriter

theorem mapEntry_unchanged (hover : w.ima.overwrite = false) {o : Objects} {e : String × Checksum}
    {x : FileObject} (hx : o.files[e.2]? = some x) (hleft : LeftAlone variant false x) :
    Ends (Unchanged o) (w.mapEntry e) (fun e' s' => e = e' ∧ Unchanged o s') := by
  intro s hs
  obtain ⟨hobjects, htable⟩ := hs
  refine ⟨e, s, ?_, rfl, hobjects, htable⟩
  have hstored : s.repo.files[e.2]? = some x := by rw [hobjects, hx]
  have hmemo : s.rewrittenFiles[e.2]? = none := by rw [htable, ExtTreeMap.lookup_empty]
  rw [← hover] at hleft
  rw [mapEntry, bind_of_ok (get_run s), hmemo]
  show (w.mapFile e.2 >>= _ : RewriteM _) s = _
  rw [bind_of_ok (mapFile_of_leftAlone hstored hleft)]
  rfl

/-- **A settled tree is written as it was read.** -/
theorem mapDirtree_unchanged (hover : w.ima.overwrite = false) {o : Objects} {n fuel : Nat}
    {c : Checksum} (h : Settled lib variant o n c) (hfuel : n ≤ fuel) :
    Ends (Unchanged o) (w.mapDirtree fuel c) (fun c' s' => c = c' ∧ Unchanged o s') := by
  induction n generalizing fuel c with
  | zero => exact h.elim
  | succ n ih =>
      obtain ⟨fuel, rfl⟩ : ∃ k, fuel = k + 1 := ⟨fuel - 1, by omega⟩
      obtain ⟨d, hd, hsum, hfiles, hdirs⟩ := h
      intro s hs
      have hload : s.repo.dirtrees[c]? = some d := by rw [hs.1, hd]
      have hentry : ∀ e ∈ d.files, Ends (Unchanged o) (w.mapEntry e)
          (fun e' s' => e = e' ∧ Unchanged o s') := by
        intro e he
        obtain ⟨x, hx, hleft⟩ := hfiles e he
        exact mapEntry_unchanged hover hx hleft
      obtain ⟨files, s₁, hfilesRun, hfilesEq, hs₁⟩ := Ends.mapM hentry s hs
      have hsub : ∀ item ∈ d.dirs, Ends (Unchanged o) (w.mapSubdir fuel item)
          (fun item' s' => item = item' ∧ Unchanged o s') := by
        intro item hitem t ht
        obtain ⟨mapped, t', hrun, heq, ht'⟩ := ih (hdirs item hitem)
          (Nat.le_of_succ_le_succ hfuel) t ht
        refine ⟨_, t', mapSubdir_run hrun, ?_, ht'⟩
        rw [← heq]
      obtain ⟨dirs, s₂, hdirsRun, hdirsEq, hs₂⟩ := Ends.mapM hsub s₁ hs₁
      rw [List.forall₂_eq_eq_eq] at hfilesEq hdirsEq
      have hrun := mapDirtree_run hload hfilesRun hdirsRun
      rw [← hfilesEq, ← hdirsEq] at hrun
      refine ⟨_, _, hrun, hsum.symm, ?_, hs₂.2⟩
      have hmem : lib.dirtreeChecksum d ∈ s₂.repo.dirtrees := by
        rw [hs₂.1, hsum]
        exact ExtTreeMap.mem_iff_lookup.mpr ⟨d, hd⟩
      show { s₂.repo.toObjects with
        dirtrees := s₂.repo.dirtrees.insertIfNew (lib.dirtreeChecksum d) d } = o
      rw [ExtTreeMap.insertIfNew_of_mem hmem]
      exact hs₂.1

end CommitRewriter

-- ── One commit ──

/-- The state after a commit has been written. -/
def Rewriting.storedCommit (lib : Libostree) (k : Commit) (s : Rewriting) : Rewriting :=
  { s with
    repo := Repo.record (.wrote .commit (lib.commitChecksum k))
      { s.repo with commits := s.repo.commits.insertIfNew (lib.commitChecksum k) k } }

theorem Rewriting.later_storedCommit (lib : Libostree) (k : Commit) (s : Rewriting) :
    Later s (s.storedCommit lib k) where
  objects := .insert_commit _ _ _
  table _ _ h := h

section Commit

variable {repo : Repo} {ref : String} {c : Checksum} {commit : Commit} {fuel : Nat}

theorem imaSign_run (hrev : repo.requireRev ref = .ok c) (hcommit : repo.commits[c]? = some commit)
    {t : Checksum} {s : Rewriting}
    (htree : w.mapDirtree fuel commit.contents { repo := repo } = .ok t s) :
    imaSign w fuel repo ref = .ok (lib.commitChecksum { commit with contents := t })
      (s.storedCommit lib { commit with contents := t }) := by
  have hload : repo.loadCommit c = .ok commit := by rw [Repo.loadCommit, hcommit, okOr_some]
  rw [imaSign, CommitRewriter.mapCommit, bind_of_ok (get_run _)]
  show (liftR (repo.requireRev ref) >>= _ : RewriteM Checksum) { repo := repo } = _
  rw [hrev, bind_of_ok (liftR_ok _ _), hload, bind_of_ok (liftR_ok _ _), bind_of_ok htree]
  rfl

theorem imaSign_ok (hrev : repo.requireRev ref = .ok c) (hcommit : repo.commits[c]? = some commit)
    {c' : Checksum} {s' : Rewriting} (h : imaSign w fuel repo ref = .ok c' s') :
    ∃ t s, w.mapDirtree fuel commit.contents { repo := repo } = .ok t s ∧
      c' = lib.commitChecksum { commit with contents := t } ∧
      s' = s.storedCommit lib { commit with contents := t } := by
  have hrun := h
  have hload : repo.loadCommit c = .ok commit := by rw [Repo.loadCommit, hcommit, okOr_some]
  rw [imaSign, CommitRewriter.mapCommit, bind_of_ok (get_run _)] at hrun
  change (liftR (repo.requireRev ref) >>= _ : RewriteM Checksum) { repo := repo } = _ at hrun
  rw [hrev, bind_of_ok (liftR_ok _ _), hload, bind_of_ok (liftR_ok _ _)] at hrun
  obtain ⟨t, s, htree, -⟩ := bind_ok hrun
  rw [imaSign_run hrev hcommit htree] at h
  injection h with hc hs
  exact ⟨t, s, htree, hc.symm, hs.symm⟩

end Commit

-- ── What is kept of a file ──

/-- A symbolic link keeps its object; a regular file keeps its owner, its mode, its content and
    all its attributes other than `security.ima`, which it has. -/
inductive KeptFile (variant : Codec (List (Bytes × Bytes))) :
    Checksum → FileObject → Checksum → FileObject → Prop where
  | symlink (c : Checksum) (uid gid : UInt32) (xattrs : Bytes) (target : String) :
      KeptFile variant c (.symlink uid gid xattrs target) c (.symlink uid gid xattrs target)
  | regular {c c' : Checksum} {uid gid mode : UInt32} {xattrs xattrs' content : Bytes}
      (others : ∀ k, k ≠ imaXattr → (xattrsToMap (variant.ofBytes xattrs'))[k]?
        = (xattrsToMap (variant.ofBytes xattrs))[k]?)
      (signed : (xattrsToMap (variant.ofBytes xattrs'))[imaXattr]?.isSome) :
      KeptFile variant c (.regular uid gid mode xattrs content) c'
        (.regular uid gid mode xattrs' content)

section Files

variable {overwrite : Bool} {o : FileObject} {sig : Bytes}

/-- The attributes of a signed object are the old ones and the signature. -/
theorem attributes_signedObject (hvariant : ∀ v, variant.ofBytes (variant.toBytes v) = v)
    (hleft : ¬ LeftAlone variant overwrite o) :
    attributes variant (signedObject variant sig o)
      = ((attributes variant o).erase imaXattr).insert imaXattr sig := by
  cases o with
  | symlink uid gid xattrs target => exact absurd trivial hleft
  | regular uid gid mode xattrs content =>
      rw [signedObject, attributes, FileObject.xattrs, hvariant, xattrsToMap_toList]

theorem keptFile_signedObject (hvariant : ∀ v, variant.ofBytes (variant.toBytes v) = v)
    (hleft : ¬ LeftAlone variant overwrite o) (c c' : Checksum) :
    KeptFile variant c o c' (signedObject variant sig o) := by
  have hattributes := @attributes_signedObject _ _ _ sig hvariant hleft
  cases o with
  | symlink uid gid xattrs target => exact absurd trivial hleft
  | regular uid gid mode xattrs content =>
      refine .regular (fun k hk => ?_) ?_
      · show (attributes variant (signedObject variant sig (.regular uid gid mode xattrs content)))[k]?
          = (attributes variant (.regular uid gid mode xattrs content))[k]?
        rw [hattributes, ExtTreeMap.lookup_insert, if_neg hk.symm, ExtTreeMap.lookup_erase,
          if_neg hk.symm]
      · show (attributes variant (signedObject variant sig
          (.regular uid gid mode xattrs content)))[imaXattr]?.isSome
        rw [hattributes, ExtTreeMap.lookup_insert, if_pos rfl]
        rfl

/-- A signed object is left alone by a run that does not replace signatures. -/
theorem leftAlone_signedObject (hvariant : ∀ v, variant.ofBytes (variant.toBytes v) = v)
    (hleft : ¬ LeftAlone variant overwrite o) : LeftAlone variant false (signedObject variant sig o) := by
  have hattributes := @attributes_signedObject _ _ _ sig hvariant hleft
  cases o with
  | symlink uid gid xattrs target => exact absurd trivial hleft
  | regular uid gid mode xattrs content =>
      refine ⟨?_, rfl⟩
      show (attributes variant (signedObject variant sig
        (.regular uid gid mode xattrs content)))[imaXattr]?.isSome
      rw [hattributes, ExtTreeMap.lookup_insert, if_pos rfl]
      rfl

theorem keptFile_of_leftAlone (hleft : LeftAlone variant overwrite o) (c : Checksum) :
    KeptFile variant c o c o := by
  cases o with
  | symlink uid gid xattrs target => exact .symlink c uid gid xattrs target
  | regular uid gid mode xattrs content => exact .regular (fun _ _ => rfl) hleft.1

theorem LeftAlone.not_replaced (hleft : LeftAlone variant overwrite o) : LeftAlone variant false o := by
  cases o with
  | symlink uid gid xattrs target => trivial
  | regular uid gid mode xattrs content => exact ⟨hleft.1, rfl⟩

/-- What the table says, as a function: what it does not name stays. -/
def Rewriting.rewritten (s : Rewriting) (x : Checksum) : Checksum := s.rewrittenFiles[x]?.getD x

variable {s : Rewriting} {x y : Checksum}

theorem Mapped.rewritten_eq (hsound : TableSound variant overwrite s)
    (h : Mapped variant overwrite s x y) : s.rewritten x = y := by
  rw [Rewriting.rewritten]
  rcases h with h | ⟨rfl, o, ho, hleft⟩
  · rw [h]
    rfl
  · cases htable : s.rewrittenFiles[y]? with
    | none => rfl
    | some z =>
        obtain ⟨o', _, ho', hleft', _⟩ := hsound y z htable
        rw [ho] at ho'
        injection ho' with ho'
        rw [ho'] at hleft
        exact absurd hleft hleft'

/-- **A mapped file is kept**, and is left alone by a run that does not replace signatures. -/
theorem Mapped.keptFile (hvariant : ∀ v, variant.ofBytes (variant.toBytes v) = v)
    (hsound : TableSound variant overwrite s) (h : Mapped variant overwrite s x y) :
    ∃ o o', s.repo.files[x]? = some o ∧ s.repo.files[y]? = some o' ∧ KeptFile variant x o y o' ∧
      LeftAlone variant false o' := by
  rcases h with h | ⟨rfl, o, ho, hleft⟩
  · obtain ⟨o, sig, ho, hleft, ho'⟩ := hsound x y h
    exact ⟨o, _, ho, ho', keptFile_signedObject hvariant hleft x y,
      leftAlone_signedObject hvariant hleft⟩
  · exact ⟨o, o, ho, ho, keptFile_of_leftAlone hleft y, hleft.not_replaced⟩

end Files

/-- The commit `commit'` in the store `r'` is the commit `commit` of the store `r`, signed: it
    differs in the checksum of its root contents alone, its tree has the same paths and the same
    directory metadata, and `f` tells which object each object has become, whatever path it
    stands at. -/
structure ImaSigned (variant : Codec (List (Bytes × Bytes))) (f : Checksum → Checksum)
    (r r' : Objects) (commit commit' : Commit) : Prop where
  same : commit' = { commit with contents := commit'.contents }
  dirs : ∀ p m, r'.At commit'.contents p (.dir m) ↔ r.At commit.contents p (.dir m)
  files : ∀ p y, r'.At commit'.contents p (.file y) ↔ ∃ x, r.At commit.contents p (.file x) ∧ f x = y
  kept : ∀ p x, r.At commit.contents p (.file x) →
    ∃ o o', r.files[x]? = some o ∧ r'.files[f x]? = some o' ∧ KeptFile variant x o (f x) o'

-- ── The new tree ──

section Claim

variable {repo : Repo} {commit : Commit}

/-- From a repository that holds the whole commit, nothing else is met on the way. -/
theorem sameTrees {o' : Objects} (hcomplete : repo.Complete commit)
    (hkeeps : repo.toObjects.Keeps o') {t : Checksum}
    (ht : repo.Reaches commit.contents .dirTree t) : o'.dirtrees[t]? = repo.dirtrees[t]? := by
  obtain ⟨d, hd⟩ := ExtTreeMap.mem_iff_lookup.mp (hcomplete .dirTree t (.inr ht))
  rw [hkeeps.dirtrees _ _ hd, hd]

theorem sameFile {o' : Objects} (hcomplete : repo.Complete commit)
    (hkeeps : repo.toObjects.Keeps o') {x : Checksum} {f : FileObject}
    (hx : repo.Reaches commit.contents .file x) (hf : o'.files[x]? = some f) :
    repo.files[x]? = some f := by
  obtain ⟨f₀, hf₀⟩ := ExtTreeMap.mem_iff_lookup.mp (hcomplete .file x (.inr hx))
  rw [← hf, hkeeps.files _ _ hf₀]
  exact hf₀

variable {overwrite : Bool} {s : Rewriting} {n : Nat} {t : Checksum}

/-- **The commit over a rewritten tree** is the old one, signed. -/
theorem imaSigned_of_rewrites (hvariant : ∀ v, variant.ofBytes (variant.toBytes v) = v)
    (hcomplete : repo.Complete commit) (hkeeps : repo.toObjects.Keeps s.repo.toObjects)
    (hsound : TableSound variant overwrite s)
    (h : Rewrites lib s.repo.toObjects (Mapped variant overwrite s) n commit.contents t) :
    ImaSigned variant s.rewritten repo.toObjects s.repo.toObjects commit
      { commit with contents := t } := by
  have hM : ∀ x y, Mapped variant overwrite s x y → s.rewritten x = y :=
    fun _ _ hxy => hxy.rewritten_eq hsound
  have hold : ∀ {p e}, s.repo.At commit.contents p e → repo.At commit.contents p e :=
    fun he => he.transfer (fun t ht => sameTrees hcomplete hkeeps ht)
  refine ⟨rfl, ?_, ?_, ?_⟩
  · intro p m
    constructor
    · intro hm
      obtain ⟨e, he, heq⟩ := h.at_old hM hm
      cases e with
      | file x => exact absurd heq (by simp [TreeEntry.rewrite])
      | dir m' =>
          injection heq with heq
          rw [← heq]
          exact hold he
    · intro hm
      exact h.at_new hM (hm.mono hkeeps)
  · intro p y
    constructor
    · intro hy
      obtain ⟨e, he, heq⟩ := h.at_old hM hy
      cases e with
      | dir m => exact absurd heq (by simp [TreeEntry.rewrite])
      | file x =>
          injection heq with heq
          exact ⟨x, hold he, heq⟩
    · rintro ⟨x, hx, rfl⟩
      exact h.at_new hM (hx.mono hkeeps)
  · intro p x hx
    have hnew := h.at_new hM (hx.mono hkeeps)
    obtain ⟨y, hmapped⟩ := h.mapped (hx.mono hkeeps)
    obtain ⟨o, o', ho, ho', hkept, _⟩ := hmapped.keptFile hvariant hsound
    rw [hM x y hmapped]
    exact ⟨o, o', sameFile hcomplete hkeeps hx.reaches ho, ho', hkept⟩

/-- **The new commit is complete.** -/
theorem complete_of_rewrites (hvariant : ∀ v, variant.ofBytes (variant.toBytes v) = v)
    (hcomplete : repo.Complete commit) (hkeeps : repo.toObjects.Keeps s.repo.toObjects)
    (hsound : TableSound variant overwrite s)
    (h : Rewrites lib s.repo.toObjects (Mapped variant overwrite s) n commit.contents t) :
    s.repo.Complete { commit with contents := t } := by
  have hall := hcomplete.mono hkeeps
  rintro ty x (⟨rfl, rfl⟩ | hx)
  · exact hall .dirMeta _ (.inl ⟨rfl, rfl⟩)
  · rcases h.reaches hx with ⟨rfl, htree⟩ | ⟨rfl, y, _, hmapped⟩ | ⟨rfl, hmeta⟩
    · exact htree
    · obtain ⟨_, o', _, ho', _⟩ := hmapped.keptFile hvariant hsound
      exact ExtTreeMap.mem_iff_lookup.mpr ⟨o', ho'⟩
    · exact hall .dirMeta x (.inr hmeta)

/-- **Signing again** a commit over a settled tree writes the commit that is there. -/
theorem imaSign_unchanged {repo' : Repo} {c' : Checksum} {commit' : Commit} {fuel : Nat}
    (hover : w.ima.overwrite = false) (hsum : lib.commitChecksum commit' = c')
    (hcommit : repo'.commits[c']? = some commit')
    (hsettled : Settled lib variant repo'.toObjects n commit'.contents) (hfuel : n ≤ fuel) :
    ∃ s'', imaSign w fuel repo' c' = .ok c' s'' ∧ s''.repo.toObjects = repo'.toObjects := by
  have hrev : repo'.requireRev c' = .ok c' := by
    rw [Repo.requireRev, if_pos]
    rw [← hsum]
    exact lib.sha256_isSha256 _
  obtain ⟨t, s₁, htree, heq, hsame, _⟩ := CommitRewriter.mapDirtree_unchanged hover hsettled hfuel
    { repo := repo' } ⟨rfl, rfl⟩
  have hrun := imaSign_run hrev hcommit htree
  rw [← heq] at hrun
  change imaSign w fuel repo' c' = .ok (lib.commitChecksum commit') (s₁.storedCommit lib commit') at hrun
  rw [hsum] at hrun
  refine ⟨_, hrun, ?_⟩
  have hmem : lib.commitChecksum commit' ∈ s₁.repo.commits := by
    rw [hsame, hsum]
    exact ExtTreeMap.mem_iff_lookup.mpr ⟨_, hcommit⟩
  show { s₁.repo.toObjects with
    commits := s₁.repo.commits.insertIfNew (lib.commitChecksum commit') commit' } = _
  rw [ExtTreeMap.insertIfNew_of_mem hmem]
  exact hsame

/-- **Signing preserves the commit and is idempotent.**  Of a commit that is stored completely, a
    run comes to an end where `evmctl` makes its signatures; and whatever these are, if no two
    objects collide, the run yields the commit signed, and a run over that one which replaces no
    signatures returns the same checksum. -/
theorem imaSign_preserves (hvariant : ∀ v, variant.ofBytes (variant.toBytes v) = v)
    {ref : String} {c : Checksum} (hrev : repo.requireRev ref = .ok c)
    (hcommit : repo.commits[c]? = some commit) (hcomplete : repo.Complete commit) (fuel : Nat)
    (w : CommitRewriter lib variant) :
    (repo.DepthLt fuel commit.contents → w.Answers →
      ∃ c' s', imaSign w fuel repo ref = .ok c' s') ∧
    ∀ c' s', imaSign w fuel repo ref = .ok c' s' → CollisionFree lib s'.repo.toObjects →
      ∃ commit' f, s'.repo.commits[c']? = some commit' ∧ s'.repo.Complete commit' ∧
        ImaSigned variant f repo.toObjects s'.repo.toObjects commit commit' ∧
        ∀ (w' : CommitRewriter lib variant) (fuel' : Nat), w'.ima.overwrite = false → fuel ≤ fuel' →
          ∃ s'', imaSign w' fuel' s'.repo c' = .ok c' s'' ∧
            s''.repo.toObjects = s'.repo.toObjects := by
  constructor
  · intro hdepth hanswers
    obtain ⟨t, s, htree, _⟩ := CommitRewriter.mapDirtree_ends hanswers hdepth
      (fun ty x hx => hcomplete ty x (.inr hx)) { repo := repo } (.refl _)
    exact ⟨_, _, imaSign_run hrev hcommit htree⟩
  · intro c' s' h hfree
    obtain ⟨t, s, htree, hc, hs⟩ := imaSign_ok hrev hcommit h
    have hwritten : s.Later s' := by
      rw [hs]
      exact Rewriting.later_storedCommit lib _ s
    have hkeeps : repo.toObjects.Keeps s'.repo.toObjects :=
      (CommitRewriter.mapDirtree_later htree).objects.trans hwritten.objects
    have hempty : TableSound variant w.ima.overwrite { repo := repo } := by
      intro x y hxy
      rw [ExtTreeMap.lookup_empty] at hxy
      exact absurd hxy (by simp)
    obtain ⟨hsound, hrewrites⟩ := CommitRewriter.mapDirtree_spec hempty htree
      (hfree.of_keeps hwritten.objects)
    have hsound' : TableSound variant w.ima.overwrite s' := hsound.later hwritten (by rw [hs]; rfl)
    have hrewrites' := hrewrites.later hwritten
    have hstored : s'.repo.commits[c']? = some { commit with contents := t } := by
      rw [hs] at hfree ⊢
      rw [hc]
      exact lookup_insertIfNew_unique (fun x hx => hfree.commits _ x hx _ rfl)
    refine ⟨{ commit with contents := t }, s'.rewritten, hstored,
      complete_of_rewrites hvariant hcomplete hkeeps hsound' hrewrites',
      imaSigned_of_rewrites hvariant hcomplete hkeeps hsound' hrewrites', ?_⟩
    intro w' fuel' hover hfuel
    have hsettled := hrewrites'.settled (fun x y hxy => by
      obtain ⟨_, o', _, ho', _, hleft⟩ := hxy.keptFile hvariant hsound'
      exact ⟨o', ho', hleft⟩)
    exact imaSign_unchanged hover hc.symm hstored hsettled hfuel

end Claim

-- ── Tables without collisions ──

section Tables

variable {t : LibTables}

theorem LibTables.fileChecksum_eq (hkeys : (t.files.map (·.1)).Nodup) {f : FileObject} {c : Checksum}
    (h : (f, c) ∈ t.files) : t.lib.fileChecksum f = c := tableGet_of_mem _ hkeys h

theorem LibTables.dirtreeChecksum_eq (hkeys : (t.dirtrees.map (·.1)).Nodup)
    (hsums : (t.sums.map (·.1)).Nodup) {d : DirTree} {b : Bytes} {c : Checksum}
    (h : (d, b) ∈ t.dirtrees) (hb : (b, c) ∈ t.sums) : t.lib.dirtreeChecksum d = c := by
  have hbytes : t.lib.dirtree.toBytes d = b := tableGet_of_mem _ hkeys h
  rw [Libostree.dirtreeChecksum, hbytes]
  exact tableGet_of_mem _ hsums hb

theorem LibTables.commitChecksum_eq (hkeys : (t.commits.map (·.1)).Nodup)
    (hsums : (t.sums.map (·.1)).Nodup) {k : Commit} {b : Bytes} {c : Checksum}
    (h : (k, b) ∈ t.commits) (hb : (b, c) ∈ t.sums) : t.lib.commitChecksum k = c := by
  have hbytes : t.lib.commit.toBytes k = b := tableGet_of_mem _ hkeys h
  rw [Libostree.commitChecksum, hbytes]
  exact tableGet_of_mem _ hsums hb

/-- In a table without double values, which the fallback is none of, a value has one key. -/
theorem tableGet_inj {α β : Type} [DecidableEq α] {t : List (α × β)} {fallback : β}
    (hvalues : (fallback :: t.map (·.2)).Nodup) {a a' : α} {b : β} (h : (a, b) ∈ t)
    (h' : tableGet t fallback a' = b) : a' = a := by
  obtain ⟨hfallback, hnodup⟩ := List.nodup_cons.mp hvalues
  have hmem : (a', b) ∈ t := by
    rw [tableGet] at h'
    cases hfind : t.find? (fun p => p.1 = a') with
    | none =>
        rw [hfind] at h'
        have hb : b = fallback := h'.symm
        rw [hb] at h
        exact absurd (List.mem_map_of_mem h) hfallback
    | some p =>
        rw [hfind] at h'
        have hp : p = (a', b) := Prod.ext (by simpa using List.find?_some hfind) h'
        rw [← hp]
        exact List.mem_of_find?_eq_some hfind
  exact congrArg Prod.fst (List.inj_on_of_nodup_map hnodup hmem h rfl)

/-- No value of the tables is that of two entries. -/
structure LibTables.Injective (t : LibTables) : Prop where
  files : (emptySha256 :: t.files.map (·.2)).Nodup
  sums : (emptySha256 :: t.sums.map (·.2)).Nodup
  dirtrees : ([] :: t.dirtrees.map (·.2)).Nodup
  commits : ([] :: t.commits.map (·.2)).Nodup

/-- **A store of objects of the tables** has no collisions. -/
theorem LibTables.Injective.collisionFree (hinj : t.Injective) {o : Objects}
    (hfiles : ∀ (c : Checksum) f, o.files[c]? = some f → (f, c) ∈ t.files)
    (hdirtrees : ∀ (c : Checksum) d, o.dirtrees[c]? = some d → ∃ b, (d, b) ∈ t.dirtrees ∧ (b, c) ∈ t.sums)
    (hcommits : ∀ (c : Checksum) k, o.commits[c]? = some k → ∃ b, (k, b) ∈ t.commits ∧ (b, c) ∈ t.sums) :
    CollisionFree t.lib o where
  files c f hf _ h' := tableGet_inj hinj.files (hfiles c f hf) h'
  dirtrees c d hd _ h' := by
    obtain ⟨b, hb, hc⟩ := hdirtrees c d hd
    exact tableGet_inj hinj.dirtrees hb (tableGet_inj hinj.sums hc h')
  commits c k hk _ h' := by
    obtain ⟨b, hb, hc⟩ := hcommits c k hk
    exact tableGet_inj hinj.commits hb (tableGet_inj hinj.sums hc h')

end Tables

-- ── A commit with two names for one file ──

/-- What `evmctl` answers here. -/
def sampleSig : Bytes := [3, 2, 4, 0xa1, 0xb2, 0xc3, 0xd4, 0, 1, 0x5f]

/-- The serialized form of a list with the signature alone. -/
def sampleSigBytes : Bytes := imaXattr ++ sampleSig ++ [12, 23]

/-- The serialized forms of two attribute lists, and some other form for each other list. -/
def sampleVariant : Codec (List (Bytes × Bytes)) where
  toBytes v :=
    if v = [] then []
    else if v = [(imaXattr, sampleSig)] then sampleSigBytes
    else List.replicate (Encodable.encode
      (v.map fun e => (e.1.map UInt8.toNat, e.2.map UInt8.toNat)) + 1) 0
  ofBytes b :=
    if b = [] then []
    else if b = sampleSigBytes then [(imaXattr, sampleSig)]
    else ((Encodable.decode (b.length - 1) : Option (List (List Nat × List Nat))).getD []).map
      fun e => (e.1.map UInt8.ofNat, e.2.map UInt8.ofNat)

theorem sampleVariant_reads (v : List (Bytes × Bytes)) :
    sampleVariant.ofBytes (sampleVariant.toBytes v) = v := by
  have hback : ∀ b : Bytes, (b.map UInt8.toNat).map UInt8.ofNat = b := by
    intro b
    rw [List.map_map]
    exact List.map_id'' (fun x => UInt8.ofNat_toNat) b
  by_cases hnil : v = []
  · rw [hnil]
    rfl
  · by_cases hone : v = [(imaXattr, sampleSig)]
    · rw [hone]
      rfl
    · -- a list of zeros is neither of the two forms
      have hne : ∀ n, List.replicate (n + 1) (0 : UInt8) ≠ sampleSigBytes := by
        intro n heq
        have hmem : (115 : UInt8) ∈ List.replicate (n + 1) (0 : UInt8) := by
          rw [heq]
          decide
        exact absurd (List.eq_of_mem_replicate hmem) (by decide)
      simp only [sampleVariant]
      rw [if_neg hnil, if_neg hone, if_neg (by simp), if_neg (hne _), List.length_replicate,
        Nat.add_sub_cancel, Encodable.encodek, Option.getD_some, List.map_map]
      refine (List.map_congr_left (fun e _ => ?_)).trans (List.map_id v)
      exact Prod.ext (hback e.1) (hback e.2)

/-- The file with its signature. -/
def signedMotd : FileObject := .regular 0 0 0o100644 sampleSigBytes [104, 105, 10]

def signedMotdSum : Checksum := "cc8eb3b0fd75057a487c1176c3cfdd043bb6f595eb830b9035f1bb7ed53f2125"

/-- A root directory where a file has two names. -/
def twoNamesTree (c : Checksum) : DirTree := { files := [("issue", c), ("motd", c)], dirs := [] }

def twoNamesBytes (c : Checksum) : Bytes :=
  cstr "issue" ++ csumBytes c ++ [6] ++ cstr "motd" ++ csumBytes c ++ [5] ++ [39, 77, 79]

def twoNamesTreeSum : Checksum := "f8bfda206d91bffe249e6f66eb61a18963b696304f0ebf22ac1dfc674ce841e0"

def signedTreeSum : Checksum := "38bf306fcaa00a94d7d2c563a0266c9ee44feb987773ad13a6920e00b5de6de2"

def twoNamesCommit : Commit := { contents := twoNamesTreeSum, dirmeta := sampleMetaSum }

def twoNamesCommitSum : Checksum :=
  "268ab1d3a7bf8bc96346df531aca172c4e75777baf1e3a583a79cab2e4f1d39b"

def signedCommit : Commit := { contents := signedTreeSum, dirmeta := sampleMetaSum }

def signedCommitSum : Checksum := "c6609b6ce1b8675c3186208ca434a9a17e1e48209f7eaf21e904818eec89e7eb"

/-- The objects of the commit and of the signed one. -/
def imaTables : LibTables where
  sums := [(sampleMetaBytes, sampleMetaSum), (twoNamesBytes sampleMotdSum, twoNamesTreeSum),
    (twoNamesBytes signedMotdSum, signedTreeSum),
    (plainCommitBytes twoNamesCommit, twoNamesCommitSum),
    (plainCommitBytes signedCommit, signedCommitSum)]
  files := [(sampleMotd, sampleMotdSum), (signedMotd, signedMotdSum)]
  commits := [(twoNamesCommit, plainCommitBytes twoNamesCommit),
    (signedCommit, plainCommitBytes signedCommit)]
  dirtrees := [(twoNamesTree sampleMotdSum, twoNamesBytes sampleMotdSum),
    (twoNamesTree signedMotdSum, twoNamesBytes signedMotdSum)]
  dirmetas := [(sampleMeta, sampleMetaBytes)]
  sums_isSha256 := by decide +kernel
  files_isSha256 := by decide +kernel

/-- A repository with the commit. -/
def imaRepo : Repo where
  commits := (∅ : ExtTreeMap Checksum Commit).insert twoNamesCommitSum twoNamesCommit
  dirtrees := (∅ : ExtTreeMap Checksum DirTree).insert twoNamesTreeSum (twoNamesTree sampleMotdSum)
  dirmetas := (∅ : ExtTreeMap Checksum DirMeta).insert sampleMetaSum sampleMeta
  files := (∅ : ExtTreeMap Checksum FileObject).insert sampleMotdSum sampleMotd

/-- Signing with a key that always makes the same signature. -/
def sampleRewriter : CommitRewriter imaTables.lib sampleVariant where
  ima := { algorithm := "sha256", key := "privkey_ima.pem", overwrite := false }
  evmctl := fun _ _ _ _ => .ok sampleSig

section Sample

theorem fileChecksum_signedMotd : imaTables.lib.fileChecksum signedMotd = signedMotdSum :=
  LibTables.fileChecksum_eq (by decide) (by simp [imaTables])

theorem dirtreeChecksum_signedTree :
    imaTables.lib.dirtreeChecksum (twoNamesTree signedMotdSum) = signedTreeSum :=
  @LibTables.dirtreeChecksum_eq _ (by decide +kernel) (by decide +kernel) _
    (twoNamesBytes signedMotdSum) _ (by simp [imaTables]) (by simp [imaTables])

theorem commitChecksum_signedCommit : imaTables.lib.commitChecksum signedCommit = signedCommitSum :=
  @LibTables.commitChecksum_eq _ (by decide +kernel) (by decide +kernel) _
    (plainCommitBytes signedCommit) _ (by simp [imaTables]) (by simp [imaTables])

theorem lookup_twoNamesTree : imaRepo.dirtrees[twoNamesTreeSum]? = some (twoNamesTree sampleMotdSum) := by
  rw [imaRepo, ExtTreeMap.lookup_insert, if_pos rfl]

theorem lookup_imaMotd : imaRepo.files[sampleMotdSum]? = some sampleMotd := by
  rw [imaRepo, ExtTreeMap.lookup_insert, if_pos rfl]

theorem lookup_twoNamesCommit : imaRepo.commits[twoNamesCommitSum]? = some twoNamesCommit := by
  rw [imaRepo, ExtTreeMap.lookup_insert, if_pos rfl]

theorem twoNamesCommit_complete : imaRepo.Complete twoNamesCommit := by
  rintro ty x (⟨rfl, rfl⟩ | hx)
  · exact ExtTreeMap.mem_iff_lookup.mpr ⟨sampleMeta, by rw [imaRepo, ExtTreeMap.lookup_insert]; exact if_pos rfl⟩
  · rcases Objects.reaches_iff.mp hx with ⟨rfl, rfl⟩ | ⟨d, hd, hbelow⟩
    · exact ExtTreeMap.mem_iff_lookup.mpr ⟨_, lookup_twoNamesTree⟩
    · rw [show imaRepo.dirtrees[twoNamesCommit.contents]? = _ from lookup_twoNamesTree] at hd
      injection hd with hd
      rw [← hd] at hbelow
      rcases hbelow with ⟨rfl, f, hf, rfl⟩ | ⟨s, hs, _⟩
      · have hsum : f.2 = sampleMotdSum := by
          rcases List.mem_cons.mp hf with rfl | hf
          · rfl
          · rw [List.mem_singleton.mp hf]
        rw [hsum]
        exact ExtTreeMap.mem_iff_lookup.mpr ⟨_, lookup_imaMotd⟩
      · exact absurd hs List.not_mem_nil

/-- The start of the run, and where it stands when the file has been signed. -/
def imaStart : Rewriting := { repo := imaRepo }

def imaMotdSigned : Rewriting :=
  (imaStart.stored imaTables.lib signedMotd).remember sampleMotdSum signedMotdSum

theorem attributes_sampleMotd : attributes sampleVariant sampleMotd = ∅ := rfl

theorem sampleMotd_not_leftAlone : ¬ LeftAlone sampleVariant false sampleMotd := by
  intro h
  have hsig : (attributes sampleVariant sampleMotd)[imaXattr]?.isSome = true := h.1
  rw [attributes_sampleMotd, ExtTreeMap.lookup_empty] at hsig
  exact Bool.false_ne_true hsig

theorem signedObject_sampleMotd : signedObject sampleVariant sampleSig sampleMotd = signedMotd := by
  have hmap : ((attributes sampleVariant sampleMotd).erase imaXattr).insert imaXattr sampleSig
      = xattrsToMap [(imaXattr, sampleSig)] := by
    apply ExtTreeMap.ext_getElem?
    intro k
    show _ = ((∅ : ExtTreeMap Bytes Bytes).insert imaXattr sampleSig)[k]?
    rw [attributes_sampleMotd, ExtTreeMap.lookup_insert, ExtTreeMap.lookup_insert,
      ExtTreeMap.lookup_erase, ExtTreeMap.lookup_empty]
    by_cases hk : imaXattr = k
    · rw [if_pos hk, if_pos hk]
    · rw [if_neg hk, if_neg hk, if_neg hk]
  have hlist : (xattrsToMap [(imaXattr, sampleSig)]).toList = [(imaXattr, sampleSig)] := by
    decide +kernel
  show FileObject.regular 0 0 0o100644 (sampleVariant.toBytes
    (((attributes sampleVariant sampleMotd).erase imaXattr).insert imaXattr sampleSig).toList)
      [104, 105, 10] = signedMotd
  rw [hmap, hlist]
  rfl

/-- The first name is signed. -/
theorem mapEntry_issue :
    sampleRewriter.mapEntry ("issue", sampleMotdSum) imaStart = .ok ("issue", signedMotdSum) imaMotdSigned := by
  have hmemo : imaStart.rewrittenFiles[sampleMotdSum]? = none := ExtTreeMap.lookup_empty _
  have hsigns := @CommitRewriter.mapFile_signs _ _ sampleRewriter imaStart sampleMotdSum sampleMotd
    lookup_imaMotd sampleMotd_not_leftAlone sampleSig rfl
  rw [signedObject_sampleMotd, fileChecksum_signedMotd] at hsigns
  rw [CommitRewriter.mapEntry, bind_of_ok (get_run _), hmemo]
  show (sampleRewriter.mapFile sampleMotdSum >>= _ : RewriteM _) imaStart = _
  rw [bind_of_ok hsigns]
  rfl

/-- The second one is found in the table. -/
theorem mapEntry_motd :
    sampleRewriter.mapEntry ("motd", sampleMotdSum) imaMotdSigned = .ok ("motd", signedMotdSum) imaMotdSigned := by
  have hmemo : imaMotdSigned.rewrittenFiles[sampleMotdSum]? = some signedMotdSum := by
    show ((∅ : ExtTreeMap Checksum Checksum).insert sampleMotdSum signedMotdSum)[sampleMotdSum]? = _
    rw [ExtTreeMap.lookup_insert, if_pos rfl]
  rw [CommitRewriter.mapEntry, bind_of_ok (get_run _), hmemo]
  rfl

/-- The repository after the run. -/
def imaSignedRepo : Rewriting :=
  (imaMotdSigned.storedTree imaTables.lib (twoNamesTree signedMotdSum)).storedCommit imaTables.lib
    signedCommit

theorem imaSign_twoNames :
    imaSign sampleRewriter 1 imaRepo twoNamesCommitSum = .ok signedCommitSum imaSignedRepo := by
  have hfiles : (twoNamesTree sampleMotdSum).files.mapM sampleRewriter.mapEntry imaStart
      = .ok (twoNamesTree signedMotdSum).files imaMotdSigned := by
    rw [twoNamesTree, List.mapM_cons, bind_of_ok mapEntry_issue, List.mapM_cons, bind_assoc,
      bind_of_ok mapEntry_motd]
    rfl
  have htree := @CommitRewriter.mapDirtree_run _ _ _ _ 0 _ _ _ _ _ _ lookup_twoNamesTree hfiles rfl
  change sampleRewriter.mapDirtree 1 twoNamesTreeSum imaStart
    = .ok (imaTables.lib.dirtreeChecksum (twoNamesTree signedMotdSum)) _ at htree
  rw [dirtreeChecksum_signedTree] at htree
  have hrev : imaRepo.requireRev twoNamesCommitSum = .ok twoNamesCommitSum :=
    if_pos (by decide +kernel)
  have hrun := imaSign_run hrev lookup_twoNamesCommit htree
  change imaSign sampleRewriter 1 imaRepo twoNamesCommitSum
    = .ok (imaTables.lib.commitChecksum signedCommit) imaSignedRepo at hrun
  rw [commitChecksum_signedCommit] at hrun
  exact hrun

theorem lookup_single_insertIfNew {α : Type} {k k' c : Checksum} {v v' x : α}
    (h : (((∅ : ExtTreeMap Checksum α).insert k v).insertIfNew k' v')[c]? = some x) :
    (c = k ∧ x = v) ∨ (c = k' ∧ x = v') := by
  rw [ExtTreeMap.lookup_insertIfNew] at h
  cases hfirst : ((∅ : ExtTreeMap Checksum α).insert k v)[c]? with
  | some y =>
      rw [hfirst] at h
      injection h with h
      rw [h] at hfirst
      exact .inl (ExtTreeMap.lookup_single hfirst)
  | none =>
      rw [hfirst, Option.none_or] at h
      by_cases hk : k' = c
      · rw [if_pos hk] at h
        injection h with h
        exact .inr ⟨hk.symm, h.symm⟩
      · rw [if_neg hk] at h
        exact absurd h (by simp)

theorem imaTables_injective : imaTables.Injective where
  files := by decide +kernel
  sums := by decide +kernel
  dirtrees := by decide +kernel
  commits := by decide +kernel

theorem imaSignedRepo_collisionFree :
    CollisionFree imaTables.lib imaSignedRepo.repo.toObjects := by
  refine imaTables_injective.collisionFree ?_ ?_ ?_
  · intro c f hf
    rcases lookup_single_insertIfNew hf with ⟨rfl, rfl⟩ | ⟨rfl, rfl⟩
    · exact List.mem_cons_self ..
    · rw [fileChecksum_signedMotd]
      exact List.mem_cons_of_mem _ (List.mem_singleton.mpr rfl)
  · intro c d hd
    rcases lookup_single_insertIfNew hd with ⟨rfl, rfl⟩ | ⟨rfl, rfl⟩
    · exact ⟨twoNamesBytes sampleMotdSum, by simp [imaTables], by simp [imaTables]⟩
    · rw [dirtreeChecksum_signedTree]
      exact ⟨twoNamesBytes signedMotdSum, by simp [imaTables], by simp [imaTables]⟩
  · intro c k hk
    rcases lookup_single_insertIfNew hk with ⟨rfl, rfl⟩ | ⟨rfl, rfl⟩
    · exact ⟨plainCommitBytes twoNamesCommit, by simp [imaTables], by simp [imaTables]⟩
    · rw [commitChecksum_signedCommit]
      exact ⟨plainCommitBytes signedCommit, by simp [imaTables], by simp [imaTables]⟩

/-- The commit is signed, and signing it again gives the same commit. -/
theorem twoNames_preserved : ∃ s' commit' f,
    imaSign sampleRewriter 1 imaRepo twoNamesCommitSum = .ok signedCommitSum s' ∧
    s'.repo.commits[signedCommitSum]? = some commit' ∧
    ImaSigned sampleVariant f imaRepo.toObjects s'.repo.toObjects twoNamesCommit commit' ∧
    ∃ s'', imaSign sampleRewriter 1 s'.repo signedCommitSum = .ok signedCommitSum s'' := by
  have hdepth : imaRepo.DepthLt 1 twoNamesCommit.contents := by
    intro d hd s hs
    rw [show imaRepo.dirtrees[twoNamesCommit.contents]? = _ from lookup_twoNamesTree] at hd
    injection hd with hd
    rw [← hd] at hs
    exact absurd hs List.not_mem_nil
  obtain ⟨hends, hpreserves⟩ := imaSign_preserves sampleVariant_reads (if_pos (by decide +kernel))
    lookup_twoNamesCommit twoNamesCommit_complete 1 sampleRewriter
  obtain ⟨c', s', hrun⟩ := hends hdepth (fun _ _ _ _ => ⟨sampleSig, rfl⟩)
  have heq := imaSign_twoNames.symm.trans hrun
  injection heq with hc hs
  rw [← hc, ← hs] at hrun
  obtain ⟨commit', f, hstored, _, hsigned, hagain⟩ :=
    hpreserves _ _ hrun imaSignedRepo_collisionFree
  obtain ⟨s'', hsecond, _⟩ := hagain sampleRewriter 1 rfl (Nat.le_refl 1)
  exact ⟨imaSignedRepo, commit', f, hrun, hstored, hsigned, s'', hsecond⟩

end Sample

end OstreeExt
