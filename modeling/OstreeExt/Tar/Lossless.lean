import OstreeExt.Table
import OstreeExt.Tar.RoundTrip

/-!
# When exporting and importing a commit is lossless

`export_commit` does not enter a directory `sysroot` at the root of the commit, and it asks
for the size of a header that was never given one when a symbolic link occurs a second
time.  These are the only two obstacles: outside of them, what `import_tar` leaves in an
empty repository is the commit with everything it reaches.
-/

namespace OstreeExt.Tar

open OstreeExt Exec Objects

/-- The destination holds the same object as the source. -/
def SameObject (src dst : Objects) : ObjectType → Checksum → Prop
  | .dirTree, x => dst.dirtrees[x]? = src.dirtrees[x]?
  | .dirMeta, x => dst.dirmetas[x]? = src.dirmetas[x]?
  | .file, x => dst.files[x]? = src.files[x]?
  | .commit, x => dst.commits[x]? = src.commits[x]?
  | .commitMeta, _ => True

/-- The export succeeds, `import_tar` on its entries succeeds in an empty repository with
    the same checksum, and leaves there the commit, its detached metadata, and everything
    that it reaches. -/
def Lossless (lib : Libostree) (tar : TarCrate) (src : Repo) (fuel : Nat) (rev : String)
    (c : Checksum) (commit : Commit) : Prop :=
  ∃ es dst, exportCommit lib tar src fuel rev = .ok es ∧
    importTar lib (es.map Except.ok) none {} = .ok c dst ∧
    dst.commits[c]? = some commit ∧ dst.commitmetas[c]? = src.commitmetas[c]? ∧
    ∀ ty x, src.CommitReaches commit ty x → SameObject src.toObjects dst.toObjects ty x

/-- Every object below a directory `sysroot` of the root also occurs outside of it. -/
def SysrootElsewhere (src : Objects) (commit : Commit) : Prop :=
  ∀ d s, src.dirtrees[commit.contents]? = some d → s ∈ d.dirs → s.1 = "sysroot" →
    ∀ ty x, src.Reaches s.2.1 ty x →
      (ty = .dirMeta ∧ x = commit.dirmeta) ∨ src.Walks true commit.contents ty x

/-- No symbolic link object occurs at two paths of the checkout. -/
def SymlinksOnce (src : Objects) (fuel : Nat) (commit : Commit) : Prop :=
  ∀ x uid gid xattrs target, src.files[x]? = some (.symlink uid gid xattrs target) →
    ((src.occurrences fuel true [] commit.contents).map (·.2)).count x ≤ 1

-- ── Linking a second time ─────────────────────────────────────────────────────

section Relink

variable {lib : Libostree} {tar : TarCrate} {src : Repo}

theorem relinkable_regular (uid gid mode : UInt32) (x content : Bytes) :
    Relinkable tar (.regular uid gid mode x content) := ⟨content.length, rfl⟩

theorem relinkable_symlink {uid gid : UInt32} {x : Bytes} {target : String} :
    Relinkable tar (.symlink uid gid x target) ↔ ∃ n, tar.unsetSize = .ok n := Iff.rfl

/-- An object that the visits hold twice is visited after it was visited. -/
theorem exists_second_visit {vs : List Visit} {x : Checksum}
    (h : 2 ≤ (objectsOf .file vs).count x) :
    ∃ pre p f post, vs = pre ++ .file p f :: post ∧ f.2 = x ∧ x ∈ objectsOf .file pre := by
  have hsplit : ∀ us : List Visit, x ∈ objectsOf .file us →
      ∃ pre p f post, us = pre ++ .file p f :: post ∧ f.2 = x := by
    intro us hx
    obtain ⟨v, hv, hobj⟩ := mem_objectsOf.mp hx
    obtain ⟨pre, post, rfl⟩ := List.append_of_mem hv
    cases v with
    | file p f => cases hobj; exact ⟨pre, p, f, post, rfl, rfl⟩
    | dirtree c d => exact nomatch hobj
    | dirmeta c m => exact nomatch hobj
    | enter p => exact nomatch hobj
    | dir p m => exact nomatch hobj
  obtain ⟨pre, p, f, post, rfl, hf⟩ := hsplit vs (List.count_pos_iff.mp (by omega))
  by_cases hpre : x ∈ objectsOf .file pre
  · exact ⟨pre, p, f, post, rfl, hf, hpre⟩
  · -- the first occurrence is here, so the other one comes after it
    have hcount : (objectsOf .file (pre ++ .file p f :: post)).count x
        = (objectsOf .file pre).count x + (1 + (objectsOf .file post).count x) := by
      rw [objectsOf_append, List.count_append,
        show Visit.file p f :: post = [Visit.file p f] ++ post from rfl, objectsOf_append,
        List.count_append]
      congr 2
      rw [show objectsOf .file [Visit.file p f] = [f.2] from rfl, hf, List.count_singleton_self]
    rw [hcount, List.count_eq_zero.mpr hpre] at h
    obtain ⟨pre', p', f', post', rfl, hf'⟩ := hsplit post (List.count_pos_iff.mp (by omega))
    refine ⟨pre ++ .file p f :: pre', p', f', post', by simp, hf', ?_⟩
    exact mem_objectsOf.mpr ⟨.file p f, by simp, by rw [Visit.object, hf]⟩

/-- Every repeated file can be linked to again, unless it is a symbolic link whose header
    has no size. -/
theorem relinkableWalk_iff {o : Objects} {vs : List Visit} :
    RelinkableWalk tar o ∅ vs ↔ (∃ n, tar.unsetSize = .ok n) ∨
      ∀ x uid gid xattrs target, o.files[x]? = some (.symlink uid gid xattrs target) →
        (objectsOf .file vs).count x ≤ 1 := by
  constructor
  · intro h
    by_cases hn : ∃ n, tar.unsetSize = .ok n
    · exact .inl hn
    · refine .inr (fun x uid gid xattrs target hx => ?_)
      by_contra hcount
      obtain ⟨pre, p, f, post, hvs, rfl, hpre⟩ := exists_second_visit (Nat.lt_of_not_le hcount)
      exact hn (h pre p f post _ hvs (by simpa using hpre) hx)
  · intro h pre p f post x hvs hpre hx
    rw [Finset.empty_union, List.mem_toFinset] at hpre
    cases x with
    | regular uid gid mode xa content => exact relinkable_regular uid gid mode xa content
    | symlink uid gid xa target =>
        rcases h with hn | honce
        · exact hn
        · have hcount := honce f.2 uid gid xa target hx
          have hself : f.2 ∈ objectsOf .file (Visit.file p f :: post) :=
            mem_objectsOf.mpr ⟨.file p f, by simp, rfl⟩
          rw [hvs, objectsOf_append, List.count_append] at hcount
          have h1 := List.count_pos_iff.mpr hpre
          have h2 := List.count_pos_iff.mpr hself
          omega

/-- The content written only grows. -/
def GrowsContent (w w' : TarWriter) : Prop := w.wroteContent ⊆ w'.wroteContent

theorem Visit.run_growsContent (v : Visit) : Steps GrowsContent (v.run lib tar src) := by
  cases v with
  | dirtree c d =>
      intro w
      rw [Visit.run, appendDirtreeObj_run]
      split <;> exact Finset.Subset.refl _
  | dirmeta c m =>
      intro w
      rw [Visit.run, appendDirmetaObj_run]
      split <;> exact Finset.Subset.refl _
  | enter p =>
      intro w
      rw [Visit.run, noteVartmp]
      split <;> exact Finset.Subset.refl _
  | dir p m => intro w; exact Finset.Subset.refl _
  | file p f =>
      refine Steps.bind (R := GrowsContent) (fun _ _ _ => Finset.Subset.trans) ?_ (fun a w => ?_)
      · intro w
        cases hf : src.files[f.2]? with
        | none =>
            rw [appendContent_missing hf]
            exact Finset.Subset.refl _
        | some o =>
            by_cases hc : f.2 ∈ w.wroteContent
            · rw [appendContent_old hf hc]
              exact Finset.Subset.refl _
            · rw [appendContent_new hf hc]
              exact Finset.subset_insert _ _
      · simp only
        unfold appendContentHardlink
        cases hq : a.2.querySize tar with
        | ok n => rw [bind_of_ok (liftR_ok _ _)]; exact Finset.Subset.refl _
        | error e => rw [bind_of_error (liftR_error _ _)]; exact Finset.Subset.refl _

/-- A run of the walk only adds to the content written. -/
theorem visits_wroteContent_mono {vs : List Visit} {w w' : TarWriter} {u : PUnit}
    (h : forM vs (Visit.run lib tar src) w = .ok u w') : w.wroteContent ⊆ w'.wroteContent := by
  have hall : Steps GrowsContent (forM vs (Visit.run lib tar src)) :=
    Steps.loop (R := GrowsContent) (fun _ => Finset.Subset.refl _)
      (fun _ _ _ => Finset.Subset.trans) (fun v _ => v.run_growsContent)
  have hw := hall w
  rw [h] at hw
  exact hw

/-- After a successful visit to a file its object is among the content written. -/
theorem appendFile_wroteContent {p : Path} {f : String × Checksum} {w w' : TarWriter} {u : Unit}
    (h : appendFile lib tar src p f w = .ok u w') : f.2 ∈ w'.wroteContent := by
  unfold appendFile at h
  obtain ⟨a, w₁, h₁, h₂⟩ := bind_ok h
  have hw' : w'.wroteContent = w₁.wroteContent := by
    simp only [appendContentHardlink] at h₂
    obtain ⟨n, w₂, hq, hemit⟩ := bind_ok h₂
    obtain ⟨_, rfl⟩ := liftR_eq_ok hq
    cases hemit
    rfl
  rw [hw']
  cases hf : src.files[f.2]? with
  | none => rw [appendContent_missing hf] at h₁; exact nomatch h₁
  | some o =>
      by_cases hc : f.2 ∈ w.wroteContent
      · rw [appendContent_old hf hc] at h₁
        cases h₁
        exact hc
      · rw [appendContent_new hf hc] at h₁
        cases h₁
        exact Finset.mem_insert_self _ _

/-- What a successful run of the walk has visited is written. -/
theorem visits_wroteContent {vs : List Visit} {w w' : TarWriter} {u : PUnit}
    (h : forM vs (Visit.run lib tar src) w = .ok u w') :
    ∀ x ∈ objectsOf .file vs, x ∈ w'.wroteContent := by
  induction vs generalizing w with
  | nil => intro x hx; exact nomatch hx
  | cons v vs ih =>
      intro x hx
      rw [List.forM_cons] at h
      obtain ⟨_, w₁, h₁, h₂⟩ := bind_ok h
      rw [show v :: vs = [v] ++ vs from rfl, objectsOf_append] at hx
      rcases List.mem_append.mp hx with hx | hx
      · obtain ⟨v', hv', hobj⟩ := mem_objectsOf.mp hx
        rw [List.mem_singleton.mp hv'] at hobj
        cases v with
        | file p f =>
            cases hobj
            exact visits_wroteContent_mono h₂ (appendFile_wroteContent h₁)
        | dirtree c d => exact nomatch hobj
        | dirmeta c m => exact nomatch hobj
        | enter p => exact nomatch hobj
        | dir p m => exact nomatch hobj
      · exact ih h₂ x hx

/-- **A walk that succeeds never has to link to a symbolic link again**, unless the size
    of an untouched header can be queried. -/
theorem relinkableWalk_of_ok {vs : List Visit} {w w' : TarWriter} {u : PUnit}
    (h : forM vs (Visit.run lib tar src) w = .ok u w') :
    RelinkableWalk tar src.toObjects ∅ vs := by
  rintro pre p f post x rfl hpre hx
  rw [Finset.empty_union, List.mem_toFinset] at hpre
  rw [forM_append] at h
  obtain ⟨_, w₁, h₁, h₂⟩ := bind_ok h
  rw [List.forM_cons] at h₂
  obtain ⟨_, w₂, h₃, _⟩ := bind_ok h₂
  have hc : f.2 ∈ w₁.wroteContent := visits_wroteContent h₁ f.2 hpre
  change appendFile lib tar src p f w₁ = _ at h₃
  unfold appendFile at h₃
  rw [bind_of_ok (appendContent_old hx hc)] at h₃
  simp only [appendContentHardlink] at h₃
  obtain ⟨n, _, hq, _⟩ := bind_ok h₃
  exact ⟨n, (liftR_eq_ok hq).1⟩

end Relink

-- ── The round trip ────────────────────────────────────────────────────────────

section Main

variable {lib : Libostree} {tar : TarCrate} {src : Repo} {c : Checksum} {commit : Commit}

/-- `import_tar` returns the checksum of the commit that `import_commit` read. -/
theorem importTar_of_importCommit {s : Stream} {remote : Option String} {r : Repo}
    {imp : Importer} (h : importCommit lib s (Importer.newForCommit remote r) = .ok ⟨⟩ imp)
    (hdata : imp.data = .commit (some c)) :
    importTar lib s remote r = .ok c (Repo.record (.markedPartial c false)
      { imp.repo with partialCommits := imp.repo.partialCommits.erase c }) := by
  have hfinish : finishImportCommit imp = .ok c imp := by
    unfold finishImportCommit
    rw [bind_of_ok (get_run _), hdata]
    rfl
  have hbody : Repo.autoTransaction (withImporter (Importer.newForCommit remote) (do
      importCommit lib s
      finishImportCommit)) r = .ok c imp.repo := by
    unfold Repo.autoTransaction withImporter
    rw [bind_of_ok h, hfinish]
  unfold importTar
  rw [bind_of_ok hbody]
  rfl

/-- `export_commit` from the walk on. -/
theorem exportCommit_eq {rev : String} (hrev : src.requireRev rev = .ok c)
    (hcommit : src.commits[c]? = some commit) {m : DirMeta}
    (hm : src.dirmetas[commit.dirmeta]? = some m) (fuel : Nat) :
    exportCommit lib tar src fuel rev =
      match (do
        appendDirtree lib tar src fuel tarPathPrefixV0 commit.contents true
        appendStandardVar : ExportM Unit) (headWriter lib src false c commit m) with
      | .ok _ w => .ok w.out
      | .error e _ => .error e := by
  unfold exportCommit
  rw [hrev, bind_ok_eq, Repo.loadCommit, hcommit, okOr_some, bind_ok_eq,
    ← writeCommit_head hm false fuel]
  rfl

/-- The objects of the walk are those that it meets. -/
theorem mem_afterVisits (hs : StoredCommit lib src c commit) {fuel : Nat}
    (hdepth : src.DepthLt fuel commit.contents) {b : Bool} {ty : ObjectType}
    {S : Finset Checksum} {x : Checksum} :
    x ∈ afterVisits ty S (visits src.toObjects b fuel tarPathPrefixV0 commit.contents true) ↔
      x ∈ S ∨ (src.Walks true commit.contents ty x ∧ (b = true → ty ≠ .file)) := by
  have hstored : ∀ ty x, src.Reaches commit.contents ty x → src.Has ty x :=
    fun ty x hx => (hs.intact ty x (.inr hx)).has
  unfold afterVisits
  rw [Finset.mem_union, List.mem_toFinset, mem_objectsOf, visits_object hstored hdepth]

/-- Everything reachable is met by the walk when nothing is only below `sysroot`. -/
theorem sysrootElsewhere_iff : SysrootElsewhere src.toObjects commit ↔
    ∀ ty x, src.CommitReaches commit ty x →
      (ty = .dirMeta ∧ x = commit.dirmeta) ∨ src.Walks true commit.contents ty x := by
  constructor
  · rintro h ty x (hx | hx)
    · exact .inl hx
    · rcases reaches_iff.mp hx with hx | ⟨d, hd, hx | ⟨s, hs, hx | hx⟩⟩
      · exact .inr (.inl hx)
      · exact .inr (.inr ⟨d, hd, .inl hx⟩)
      · exact .inr (.inr ⟨d, hd, .inr ⟨s, hs, .inl hx⟩⟩)
      · by_cases hn : s.1 = "sysroot"
        · exact h d s hd hs hn ty x hx
        · exact .inr (.inr ⟨d, hd, .inr ⟨s, hs, .inr ⟨fun hc => hn hc.2, hx⟩⟩⟩)
  · intro h d s hd hs _ ty x hx
    exact h ty x (.inr (.sub hd hs hx))

/-- In an empty repository an object of the source is there when it was written. -/
theorem Overlay.same_iff {α : Type} {src m : Std.ExtTreeMap Checksum α}
    {wrote : Finset Checksum} (h : Overlay ∅ src wrote m) {x : Checksum} (hx : x ∈ src) :
    m[x]? = src[x]? ↔ x ∈ wrote := by
  obtain ⟨a, ha⟩ := Std.ExtTreeMap.mem_iff_lookup.mp hx
  rw [h x, Std.ExtTreeMap.lookup_empty, Option.none_or, ha]
  by_cases hw : x ∈ wrote
  · simp [hw]
  · simp [hw]

/-- The writer and the importer on a commit whose walk can be written. -/
theorem exportCommit_importTar {rev : String} (hrev : src.requireRev rev = .ok c)
    (hs : StoredCommit lib src c commit) (htar : tar.KeepsLinks) {fuel : Nat}
    (hdepth : src.DepthLt fuel commit.contents)
    (hrelink : RelinkableWalk tar src.toObjects ∅
      (visits src.toObjects false fuel tarPathPrefixV0 commit.contents true)) :
    ∃ es dst, exportCommit lib tar src fuel rev = .ok es ∧
      importTar lib (es.map Except.ok) none {} = .ok c dst ∧
      dst.commits[c]? = some commit ∧ dst.commitmetas[c]? = src.commitmetas[c]? ∧
      ∀ ty x, src.CommitReaches commit ty x →
        (SameObject src.toObjects dst.toObjects ty x ↔
          (ty = .dirMeta ∧ x = commit.dirmeta) ∨ src.Walks true commit.contents ty x) := by
  obtain ⟨m, hm⟩ := hs.intact .dirMeta commit.dirmeta (.inl ⟨rfl, rfl⟩)
  obtain ⟨w, imp, hrun, himport, hmirror⟩ := importCommit_of_carries hs hm false {}
    (carries_commit hs htar hdepth hrelink)
  refine ⟨w.out, _, ?_, importTar_of_importCommit himport hmirror.data, ?_, ?_, ?_⟩
  · rw [exportCommit_eq hrev hs.stored hm.1, hrun]
  · show imp.repo.commits[c]? = some commit
    rw [hmirror.commits, headRepo_commits, Std.ExtTreeMap.lookup_insertIfNew, if_pos rfl,
      Std.ExtTreeMap.lookup_empty]
    rfl
  · show imp.repo.commitmetas[c]? = _
    rw [hmirror.commitmetas, headRepo_commitmetas, Std.ExtTreeMap.lookup_empty, Option.or_none]
  · intro ty x hx
    have hhas : src.Has ty x := (hs.intact ty x hx).has
    have hty : ty = .dirTree ∨ ty = .dirMeta ∨ ty = .file := by
      rcases hx with ⟨rfl, _⟩ | hx
      · exact .inr (.inl rfl)
      · exact hx.objtype
    rcases hty with rfl | rfl | rfl
    · have hover := hmirror.dirtrees
      rw [headRepo_dirtrees] at hover
      refine (hover.same_iff hhas).trans ?_
      rw [mem_afterVisits hs hdepth]
      simp
    · have hover := hmirror.dirmetas
      rw [headRepo_dirmetas] at hover
      refine (hover.same_iff hhas).trans ?_
      rw [mem_afterVisits hs hdepth]
      simp
    · have hover := hmirror.files
      rw [headRepo_files] at hover
      refine (hover.same_iff hhas).trans ?_
      rw [mem_afterVisits hs hdepth]
      simp

/-- The archive of a commit is imported into any repository: beside the objects of the tree there
    is the commit, with its detached metadata, and the refs are as they were. -/
theorem exportCommit_imported {rev : String} (hrev : src.requireRev rev = .ok c)
    (hs : StoredCommit lib src c commit) (htar : tar.KeepsLinks) {fuel : Nat}
    (hdepth : src.DepthLt fuel commit.contents)
    (hrelink : RelinkableWalk tar src.toObjects ∅
      (visits src.toObjects false fuel tarPathPrefixV0 commit.contents true)) :
    ∃ es, exportCommit lib tar src fuel rev = .ok es ∧ ∀ r : Repo, ∃ imp : Importer,
      importCommit lib (es.map Except.ok) (.newForCommit none r) = .ok ⟨⟩ imp ∧
      imp.data = .commit (some c) ∧ imp.repo.refs = r.refs ∧
      imp.repo.commits = r.commits.insertIfNew c commit ∧
      imp.repo.commitmetas = (headRepo c commit src.commitmetas[c]? r).commitmetas := by
  obtain ⟨m, hm⟩ := hs.intact .dirMeta commit.dirmeta (.inl ⟨rfl, rfl⟩)
  obtain ⟨w, _, hrun, -⟩ := importCommit_of_carries hs hm false {}
    (carries_commit hs htar hdepth hrelink)
  refine ⟨w.out, by rw [exportCommit_eq hrev hs.stored hm.1, hrun], fun r => ?_⟩
  obtain ⟨w', imp, hrun', himport, hmirror⟩ := importCommit_of_carries hs hm false r
    (carries_commit hs htar hdepth hrelink)
  cases hrun.symm.trans hrun'
  refine ⟨imp, himport, hmirror.data, ?_, ?_, hmirror.commitmetas⟩
  · rw [hmirror.refs]
    cases src.commitmetas[c]? <;> rfl
  · exact hmirror.commits.trans (headRepo_commits c commit src.commitmetas[c]? r)

/-- A successful export has walked over every file. -/
theorem relinkableWalk_of_export {rev : String} {fuel : Nat} (hrev : src.requireRev rev = .ok c)
    (hs : StoredCommit lib src c commit) (hdepth : src.DepthLt fuel commit.contents)
    {es : List Entry} (h : exportCommit lib tar src fuel rev = .ok es) :
    RelinkableWalk tar src.toObjects ∅
      (visits src.toObjects false fuel tarPathPrefixV0 commit.contents true) := by
  have hstored : ∀ ty x, src.Reaches commit.contents ty x → src.Has ty x :=
    fun ty x hx => (hs.intact ty x (.inr hx)).has
  obtain ⟨m, hm⟩ := hs.intact .dirMeta commit.dirmeta (.inl ⟨rfl, rfl⟩)
  rw [exportCommit_eq hrev hs.stored hm.1] at h
  split at h
  · next hrun =>
      obtain ⟨_, w₁, h₁, _⟩ := bind_ok hrun
      rw [appendDirtree_eq_visits hstored hdepth] at h₁
      exact relinkableWalk_of_ok h₁
  · exact nomatch h

/-- After a lossless round trip everything reachable was met by the walk. -/
theorem walks_of_lossless {rev : String} {fuel : Nat} (hrev : src.requireRev rev = .ok c)
    (hs : StoredCommit lib src c commit) (htar : tar.KeepsLinks)
    (hdepth : src.DepthLt fuel commit.contents) (h : Lossless lib tar src fuel rev c commit) :
    ∀ ty x, src.CommitReaches commit ty x →
      (ty = .dirMeta ∧ x = commit.dirmeta) ∨ src.Walks true commit.contents ty x := by
  obtain ⟨es, dst, hexport, himport, _, _, hsame⟩ := h
  obtain ⟨es', dst', hexport', himport', _, _, hsame'⟩ :=
    exportCommit_importTar hrev hs htar hdepth (relinkableWalk_of_export hrev hs hdepth hexport)
  obtain rfl : es = es' := Except.ok.inj (hexport.symm.trans hexport')
  obtain ⟨_, hdst⟩ := EStateM.Result.ok.inj (himport.symm.trans himport')
  intro ty x hx
  rw [← hdst] at hsame'
  exact (hsame' ty x hx).mp (hsame ty x hx)

/-- The walk over a stored commit can be written when no symbolic link is met twice. -/
theorem relinkable_iff_symlinksOnce (hcomplete : src.Complete commit) (fuel : Nat) :
    RelinkableWalk tar src.toObjects ∅
      (visits src.toObjects false fuel tarPathPrefixV0 commit.contents true) ↔
      (∃ n, tar.unsetSize = .ok n) ∨ SymlinksOnce src.toObjects fuel commit := by
  rw [relinkableWalk_iff, objectsOf_file_visits fun ty x hx => hcomplete ty x (.inr hx)]
  rfl

/-- **The round trip is lossless exactly when** nothing occurs only below a directory
    `sysroot` of the root and no symbolic link is linked to a second time (or the size of an
    untouched header can be queried). -/
theorem lossless_iff {rev : String} {fuel : Nat} (hrev : src.requireRev rev = .ok c)
    (hs : StoredCommit lib src c commit) (htar : tar.KeepsLinks)
    (hdepth : src.DepthLt fuel commit.contents) :
    Lossless lib tar src fuel rev c commit ↔
      SysrootElsewhere src.toObjects commit ∧
        ((∃ n, tar.unsetSize = .ok n) ∨ SymlinksOnce src.toObjects fuel commit) := by
  rw [← relinkable_iff_symlinksOnce fun ty x hx => (hs.intact ty x hx).has,
    sysrootElsewhere_iff]
  constructor
  · intro h
    refine ⟨walks_of_lossless hrev hs htar hdepth h, ?_⟩
    obtain ⟨es, _, hexport, _⟩ := h
    exact relinkableWalk_of_export hrev hs hdepth hexport
  · rintro ⟨hall, hwalk⟩
    obtain ⟨es, dst, hexport, himport, hc, hcm, hsame⟩ :=
      exportCommit_importTar hrev hs htar hdepth hwalk
    exact ⟨es, dst, hexport, himport, hc, hcm, fun ty x hx =>
      (hsame ty x hx).mpr (hall ty x hx)⟩

end Main

-- ── Two commits ───────────────────────────────────────────────────────────────

/-- The tar crate on targets in normal form, and on a header whose size is all zeros. -/
def sampleTar : TarCrate where
  linkName := id
  unsetSize := .error (.err "numeric field was not a number: ")

theorem sampleTar_keepsLinks : sampleTar.KeepsLinks := fun _ _ => rfl

theorem intact_emptyTree : Intact sampleTables.lib sampleRepo.toObjects .dirTree emptyTreeSum := by
  refine ⟨emptyTree, lookup_emptyTree, dirtreeChecksum_emptyTree, ?_, ?_⟩
  · rw [toBytes_emptyTree, ofBytes_emptyTree]
  · rw [toBytes_emptyTree]; decide

theorem intact_sampleMeta : Intact sampleTables.lib sampleRepo.toObjects .dirMeta sampleMetaSum := by
  refine ⟨sampleMeta, lookup_sampleMeta, dirmetaChecksum_sampleMeta, ?_, ?_⟩
  · rw [toBytes_sampleMeta, ofBytes_sampleMeta]
  · rw [toBytes_sampleMeta]; decide

/-- The empty directory reaches itself only. -/
theorem reaches_emptyTree {ty : ObjectType} {x : Checksum}
    (h : sampleRepo.Reaches emptyTreeSum ty x) : ty = .dirTree ∧ x = emptyTreeSum := by
  rcases reaches_iff.mp h with h | ⟨d, hd, h⟩
  · exact h
  · obtain rfl : emptyTree = d := Option.some.inj (lookup_emptyTree.symm.trans hd)
    rcases h with ⟨_, f, hf, _⟩ | ⟨s, hs, _⟩
    · exact nomatch hf
    · exact nomatch hs

theorem depthLt_of_lookup {o : Objects} {n : Nat} {c : Checksum} {d : DirTree}
    (hd : o.dirtrees[c]? = some d) (h : ∀ s ∈ d.dirs, o.DepthLt n s.2.1) : o.DepthLt (n + 1) c := by
  intro d' hd'
  obtain rfl : d = d' := Option.some.inj (hd.symm.trans hd')
  exact h

theorem depthLt_emptyTree : sampleRepo.DepthLt 1 emptyTreeSum :=
  depthLt_of_lookup lookup_emptyTree (fun _ hs => nomatch hs)

theorem intact_sampleLink : IntactFile sampleTables.lib sampleRepo.toObjects sampleLinkSum
    sampleLink := by
  exact ⟨lookup_sampleLink, fileChecksum_sampleLink, trivial, by decide⟩

theorem intact_sampleMotd : IntactFile sampleTables.lib sampleRepo.toObjects sampleMotdSum
    sampleMotd := by
  refine ⟨lookup_sampleMotd, fileChecksum_sampleMotd, ?_, by decide⟩
  show (0o100644 : UInt32) &&& sIfmt = sIfreg
  decide

/-- What the first commit reaches. -/
theorem reaches_sampleCommit {ty : ObjectType} {x : Checksum}
    (h : sampleRepo.CommitReaches sampleCommit ty x) :
    (ty = .dirMeta ∧ x = sampleMetaSum) ∨ (ty = .dirTree ∧ (x = sampleTreeSum ∨ x = emptyTreeSum)) ∨
      (ty = .file ∧ (x = sampleLinkSum ∨ x = sampleMotdSum)) := by
  rcases h with h | h
  · exact .inl h
  · rcases reaches_iff.mp h with h | ⟨d, hd, h⟩
    · exact .inr (.inl ⟨h.1, .inl h.2⟩)
    · obtain rfl : sampleTree = d := Option.some.inj (lookup_sampleTree.symm.trans hd)
      rcases h with ⟨hty, f, hf, rfl⟩ | ⟨s, hs, hx⟩
      · rcases List.mem_cons.mp hf with rfl | hf
        · exact .inr (.inr ⟨hty, .inl rfl⟩)
        · rw [List.mem_singleton.mp hf]
          exact .inr (.inr ⟨hty, .inr rfl⟩)
      · rw [List.mem_singleton.mp hs] at hx
        rcases hx with ⟨hty, rfl⟩ | hx
        · exact .inl ⟨hty, rfl⟩
        · exact .inr (.inl ⟨(reaches_emptyTree hx).1, .inr (reaches_emptyTree hx).2⟩)

theorem sampleCommit_stored :
    StoredCommit sampleTables.lib sampleRepo sampleCommitSum sampleCommit where
  stored := lookup_sampleCommit
  checksum := commitChecksum_sampleCommit
  decodes := by rw [toBytes_sampleCommit, ofBytes_sampleCommit]
  size := by rw [toBytes_sampleCommit]; decide +kernel
  commitmeta := fun d hd => nomatch (Std.ExtTreeMap.lookup_empty _).symm.trans hd
  intact := by
    intro ty x hx
    rcases reaches_sampleCommit hx with ⟨rfl, rfl⟩ | ⟨rfl, rfl | rfl⟩ | ⟨rfl, rfl | rfl⟩
    · exact intact_sampleMeta
    · refine ⟨sampleTree, lookup_sampleTree, dirtreeChecksum_sampleTree, ?_, ?_⟩
      · rw [toBytes_sampleTree, ofBytes_sampleTree]
      · rw [toBytes_sampleTree]; decide +kernel
    · exact intact_emptyTree
    · exact ⟨_, intact_sampleLink⟩
    · exact ⟨_, intact_sampleMotd⟩
  xattrs := by
    -- neither of the two files has any
    have hnone : ∀ f o, sampleRepo.CommitReaches sampleCommit .file f →
        sampleRepo.files[f]? = some o → o.xattrs = [] := by
      intro f o hf ho
      rcases reaches_sampleCommit hf with h | h | ⟨_, rfl | rfl⟩
      · exact nomatch h.1
      · exact nomatch h.1
      · rw [Option.some.inj (ho.symm.trans intact_sampleLink.1)]; rfl
      · rw [Option.some.inj (ho.symm.trans intact_sampleMotd.1)]; rfl
    intro f g x y hf hg hx hy _
    rw [hnone f x hf hx, hnone g y hg hy]

theorem depthLt_sampleTree : sampleRepo.DepthLt 2 sampleTreeSum :=
  depthLt_of_lookup lookup_sampleTree (fun s hs => by
    rw [List.mem_singleton.mp hs]
    exact depthLt_emptyTree)

theorem sampleCommit_sysrootElsewhere : SysrootElsewhere sampleRepo.toObjects sampleCommit := by
  intro d s hd hs hn
  obtain rfl : sampleTree = d := Option.some.inj (lookup_sampleTree.symm.trans hd)
  rw [List.mem_singleton.mp hs] at hn
  exact absurd hn (by decide)

theorem sampleCommit_symlinksOnce : SymlinksOnce sampleRepo.toObjects 2 sampleCommit := by
  intro x _ _ _ _ _
  have hocc : (sampleRepo.occurrences 2 true [] sampleCommit.contents).map (·.2)
      = [sampleLinkSum, sampleMotdSum] := by
    simp only [occurrences, sampleCommit, lookup_sampleTree, sampleTree]
    rfl
  rw [hocc]
  exact List.nodup_iff_count_le_one.mp (by decide) x

/-- A commit with two files and a directory comes back whole. -/
theorem sampleCommit_lossless :
    Lossless sampleTables.lib sampleTar sampleRepo 2 sampleCommitSum sampleCommitSum
      sampleCommit :=
  (lossless_iff (if_pos isSha256_sampleCommitSum) sampleCommit_stored sampleTar_keepsLinks
    depthLt_sampleTree).mpr ⟨sampleCommit_sysrootElsewhere, .inr sampleCommit_symlinksOnce⟩

/-- What the second commit reaches. -/
theorem reaches_sysrootCommit {ty : ObjectType} {x : Checksum}
    (h : sampleRepo.CommitReaches sysrootCommit ty x) :
    (ty = .dirMeta ∧ x = sampleMetaSum) ∨
      (ty = .dirTree ∧ (x = sysrootTreeSum ∨ x = emptyTreeSum)) := by
  rcases h with h | h
  · exact .inl h
  · rcases reaches_iff.mp h with h | ⟨d, hd, h⟩
    · exact .inr ⟨h.1, .inl h.2⟩
    · obtain rfl : sysrootTree = d := Option.some.inj (lookup_sysrootTree.symm.trans hd)
      rcases h with ⟨_, f, hf, _⟩ | ⟨s, hs, hx⟩
      · exact nomatch hf
      · rw [List.mem_singleton.mp hs] at hx
        rcases hx with ⟨hty, rfl⟩ | hx
        · exact .inl ⟨hty, rfl⟩
        · exact .inr ⟨(reaches_emptyTree hx).1, .inr (reaches_emptyTree hx).2⟩

theorem sysrootCommit_stored :
    StoredCommit sampleTables.lib sampleRepo sysrootCommitSum sysrootCommit where
  stored := lookup_sysrootCommit
  checksum := commitChecksum_sysrootCommit
  decodes := by rw [toBytes_sysrootCommit, ofBytes_sysrootCommit]
  size := by rw [toBytes_sysrootCommit]; decide +kernel
  commitmeta := fun d hd => nomatch (Std.ExtTreeMap.lookup_empty _).symm.trans hd
  intact := by
    intro ty x hx
    rcases reaches_sysrootCommit hx with ⟨rfl, rfl⟩ | ⟨rfl, rfl | rfl⟩
    · exact intact_sampleMeta
    · refine ⟨sysrootTree, lookup_sysrootTree, dirtreeChecksum_sysrootTree, ?_, ?_⟩
      · rw [toBytes_sysrootTree, ofBytes_sysrootTree]
      · rw [toBytes_sysrootTree]; decide +kernel
    · exact intact_emptyTree
  xattrs := by
    intro f g x y hf
    rcases reaches_sysrootCommit hf with h | h
    · exact nomatch h.1
    · exact nomatch h.1

theorem depthLt_sysrootTree : sampleRepo.DepthLt 2 sysrootTreeSum :=
  depthLt_of_lookup lookup_sysrootTree (fun s hs => by
    rw [List.mem_singleton.mp hs]
    exact depthLt_emptyTree)

/-- **The directory `sysroot` is lost**: a commit whose root holds nothing but an empty
    `sysroot` is stored completely, and the round trip drops the dirtree of that
    directory. -/
theorem sysrootCommit_not_lossless :
    sampleRepo.requireRev sysrootCommitSum = .ok sysrootCommitSum ∧
    StoredCommit sampleTables.lib sampleRepo sysrootCommitSum sysrootCommit ∧
    sampleTar.KeepsLinks ∧ sampleRepo.DepthLt 2 sysrootCommit.contents ∧
    ¬ Lossless sampleTables.lib sampleTar sampleRepo 2 sysrootCommitSum sysrootCommitSum
      sysrootCommit := by
  have hrev : sampleRepo.requireRev sysrootCommitSum = .ok sysrootCommitSum :=
    if_pos isSha256_sysrootCommitSum
  refine ⟨hrev, sysrootCommit_stored, sampleTar_keepsLinks, depthLt_sysrootTree, ?_⟩
  intro h
  have hwalk := walks_of_lossless hrev sysrootCommit_stored sampleTar_keepsLinks
    depthLt_sysrootTree h .dirTree emptyTreeSum
    (.inr (.sub lookup_sysrootTree (List.mem_singleton.mpr rfl) (.self _)))
  rcases hwalk with ⟨hty, _⟩ | ⟨_, heq⟩ | ⟨d, hd, hwalk⟩
  · exact nomatch hty
  · exact absurd heq (by decide)
  · obtain rfl : sysrootTree = d := Option.some.inj (lookup_sysrootTree.symm.trans hd)
    rcases hwalk with ⟨hty, _⟩ | ⟨s, hs, ⟨hty, _⟩ | ⟨hskip, _⟩⟩
    · exact nomatch hty
    · exact nomatch hty
    · rw [List.mem_singleton.mp hs] at hskip
      exact hskip ⟨rfl, rfl⟩

end OstreeExt.Tar
