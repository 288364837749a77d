import OstreeExt.Tar.Lossless

/-!
# What an import adds to a repository

A successful `import_tar` adds the objects of the stream to the repository, and nothing
compares them with what the commit references.  The commit is complete afterwards exactly
when the stream, together with the repository as it was, supplies everything that the
commit reaches.
-/

namespace OstreeExt.Tar

open OstreeExt Exec Objects

-- ── What a stream offers ──────────────────────────────────────────────────────

/-- The checksum and the suffix in an object path. -/
def objectOfPath (p : Path) : Option (Checksum × String) :=
  match parseObjectEntryPath p with
  | .ok (parentname, name, suffix) =>
      match parseChecksum parentname name with
      | .ok c => some (c, suffix)
      | .error _ => none
  | .error _ => none

/-- The object that an entry offers under its path. -/
def offer (e : Entry) (p : Path) : List (Checksum × String × Entry) :=
  ((objectOfPath p).map fun q => (q.1, q.2, e)).toList

/-- The object that an item of the import loop offers. -/
def offerItem : Except String (Entry × Path) → List (Checksum × String × Entry)
  | .ok (e, p) =>
      match stripPrefix [Component.normal "objects"] p with
      | some q => offer e q
      | none => []
  | .error _ => []

/-- The objects of a stream after its commit: checksum, suffix and entry. -/
def offered (s : Stream) : List (Checksum × String × Entry) :=
  match filterEntries s with
  | _ :: .ok (e, p) :: rest => offer e p ++ rest.flatMap offerItem
  | _ => []

/-- One offered object added to the dirtrees. -/
def addDirtree (lib : Libostree) (m : Std.ExtTreeMap Checksum DirTree)
    (x : Checksum × String × Entry) : Std.ExtTreeMap Checksum DirTree :=
  if x.2.1 = "dirtree" then m.insertIfNew x.1 (lib.dirtree.ofBytes x.2.2.data) else m

/-- What a run of the importer adds to the repository. -/
structure Adds (lib : Libostree) (xs : List (Checksum × String × Entry)) (r r' : Repo) : Prop where
  commits : r'.commits = r.commits
  dirtrees : r'.dirtrees = xs.foldl (addDirtree lib) r.dirtrees
  dirmetas : ∀ x, x ∈ r'.dirmetas ↔ x ∈ r.dirmetas ∨ ∃ e, (x, "dirmeta", e) ∈ xs
  files : ∀ x, x ∈ r'.files ↔ x ∈ r.files ∨ ∃ e, (x, "file", e) ∈ xs

theorem Adds.refl (lib : Libostree) (r : Repo) : Adds lib [] r r where
  commits := rfl
  dirtrees := rfl
  dirmetas := by simp
  files := by simp

theorem Adds.trans {lib : Libostree} {xs ys : List (Checksum × String × Entry)} {r₁ r₂ r₃ : Repo}
    (h : Adds lib xs r₁ r₂) (h' : Adds lib ys r₂ r₃) : Adds lib (xs ++ ys) r₁ r₃ where
  commits := h'.commits.trans h.commits
  dirtrees := by rw [h'.dirtrees, h.dirtrees, List.foldl_append]
  dirmetas := by
    intro x
    rw [h'.dirmetas, h.dirmetas, or_assoc, ← exists_or]
    simp only [List.mem_append]
  files := by
    intro x
    rw [h'.files, h.files, or_assoc, ← exists_or]
    simp only [List.mem_append]

section Adds

variable {lib : Libostree} {c : Checksum} {e : Entry} {r r' : Repo}

/-- An entry that is no object adds nothing. -/
theorem Adds.of_eq {sfx : String} (hsfx : sfx ≠ "dirtree" ∧ sfx ≠ "dirmeta" ∧ sfx ≠ "file")
    (h : r' = r) : Adds lib [(c, sfx, e)] r r' := by
  subst h
  constructor
  · rfl
  · simp [addDirtree, hsfx.1]
  · simp [hsfx.2.1.symm]
  · simp [hsfx.2.2.symm]

theorem Adds.of_dirtree {ev : RepoEvent} :
    Adds lib [(c, "dirtree", e)] r (Repo.record ev
      { r with dirtrees := r.dirtrees.insertIfNew c (lib.dirtree.ofBytes e.data) }) where
  commits := rfl
  dirtrees := rfl
  dirmetas := by simp [Repo.record]
  files := by simp [Repo.record]

theorem Adds.of_dirmeta {m : DirMeta} {ev : RepoEvent} :
    Adds lib [(c, "dirmeta", e)] r (Repo.record ev
      { r with dirmetas := r.dirmetas.insertIfNew c m }) where
  commits := rfl
  dirtrees := rfl
  dirmetas := by
    intro x
    simp only [Repo.record]
    rw [Std.ExtTreeMap.mem_insertIfNew_iff]
    simp
  files := by simp [Repo.record]

theorem Adds.of_file {o : FileObject} {ev : RepoEvent} :
    Adds lib [(c, "file", e)] r (Repo.record ev
      { r with files := r.files.insertIfNew c o }) where
  commits := rfl
  dirtrees := rfl
  dirmetas := by simp [Repo.record]
  files := by
    intro x
    simp only [Repo.record]
    rw [Std.ExtTreeMap.mem_insertIfNew_iff]
    simp

/-- A content object that was there before is not written again. -/
theorem Adds.of_file_mem (h : c ∈ r.files) : Adds lib [(c, "file", e)] r r where
  commits := rfl
  dirtrees := rfl
  dirmetas := by simp
  files := by
    intro x
    simp only [List.mem_singleton, Prod.mk.injEq, true_and, exists_and_left]
    refine ⟨.inl, ?_⟩
    rintro (hx | ⟨rfl, _⟩)
    · exact hx
    · exact h

end Adds

-- ── Successful runs of the importer ───────────────────────────────────────────

section Runs

variable {lib : Libostree} {e : Entry} {c : Checksum} {imp imp' : Importer} {u : Unit}

theorem liftR_bind_ok {σ α β : Type} {x : Result α} {f : α → EStateM Stop σ β} {s s' : σ} {b : β}
    (h : (liftR x >>= f) s = .ok b s') : ∃ a, x = .ok a ∧ f a s = .ok b s' := by
  obtain ⟨a, s₁, hx, h⟩ := bind_ok h
  obtain ⟨hx, hs⟩ := liftR_eq_ok hx
  rw [hs] at h
  exact ⟨a, hx, h⟩

theorem onRepo_ok {α : Type} {x : RepoM α} {a : α} (h : onRepo x imp = .ok a imp') :
    ∃ r, x imp.repo = .ok a r ∧ imp' = { imp with repo := r } := by
  unfold onRepo at h
  split at h
  · next hx => cases h; exact ⟨_, hx, rfl⟩
  · exact nomatch h

theorem onRepo_bind_ok {α β : Type} {x : RepoM α} {f : α → ImportM β} {b : β}
    (h : (onRepo x >>= f) imp = .ok b imp') :
    ∃ a r, x imp.repo = .ok a r ∧ f a { imp with repo := r } = .ok b imp' := by
  obtain ⟨a, s, hx, h⟩ := bind_ok h
  obtain ⟨r, hr, hs⟩ := onRepo_ok hx
  rw [hs] at h
  exact ⟨a, r, hr, h⟩

theorem assertEq_ok {a b : Checksum} (h : assertEq a b imp = .ok u imp') : imp' = imp := by
  unfold assertEq at h
  split at h
  · cases h; rfl
  · exact nomatch h

/-- What a metadata entry decodes to. -/
theorem entryToVariant_eq_ok {α : Type} {codec : Codec α} {desc : String} {v : α}
    (h : entryToVariant codec e desc = .ok v) : v = codec.ofBytes e.data := by
  obtain ⟨_, _, h⟩ := result_bind_eq_ok.mp h
  split at h
  · exact nomatch h
  · exact (Except.ok.inj h).symm

/-- The operations on xattrs touch neither the repository nor the mode. -/
def KeepsRepo (imp imp' : Importer) : Prop := imp'.repo = imp.repo ∧ imp'.data = imp.data

theorem KeepsRepo.refl (imp : Importer) : KeepsRepo imp imp := ⟨rfl, rfl⟩

theorem KeepsRepo.trans (a b c : Importer) (h : KeepsRepo a b) (h' : KeepsRepo b c) :
    KeepsRepo a c := ⟨h'.1.trans h.1, h'.2.trans h.2⟩

theorem liftR_keepsRepo {α : Type} (x : Result α) : Steps KeepsRepo (liftR x : ImportM α) := by
  cases x with
  | ok a => exact Steps.pure KeepsRepo.refl a
  | error s => exact Steps.throw KeepsRepo.refl s

theorem cacheXattrsContent_keepsRepo (expected : Option Checksum) :
    Steps KeepsRepo (cacheXattrsContent lib e expected) := by
  unfold cacheXattrsContent
  split
  · exact Steps.throw KeepsRepo.refl _
  · dsimp only
    split
    · exact Steps.throw KeepsRepo.refl _
    · refine Steps.bind KeepsRepo.trans (liftR_keepsRepo _) (fun contents => ?_)
      split
      · exact Steps.throw KeepsRepo.refl _
      · exact Steps.bind KeepsRepo.trans (fun _ => ⟨rfl, rfl⟩)
          (fun _ => Steps.pure KeepsRepo.refl _)

theorem processFileXattrs_keepsRepo : Steps KeepsRepo (processFileXattrs lib e c) :=
  Steps.bind KeepsRepo.trans (cacheXattrsContent_keepsRepo _)
    (fun _ => Steps.pure KeepsRepo.refl _)

theorem ensureNoPendingXattrs_keepsRepo : Steps KeepsRepo ensureNoPendingXattrs := by
  refine Steps.bind KeepsRepo.trans (fun _ => ⟨rfl, rfl⟩) (fun i => ?_)
  split
  · exact Steps.throw KeepsRepo.refl _
  · exact Steps.pure KeepsRepo.refl _

theorem setNextXattrs_keepsRepo (x : Option (Checksum × Checksum)) :
    Steps KeepsRepo (modify fun imp => { imp with nextXattrs := x } : ImportM Unit) :=
  fun _ => ⟨rfl, rfl⟩

theorem processFileXattrsLink_keepsRepo : Steps KeepsRepo (processFileXattrsLink lib e c) := by
  refine Steps.bind KeepsRepo.trans ensureNoPendingXattrs_keepsRepo (fun _ => ?_)
  dsimp only
  split
  · refine Steps.bind KeepsRepo.trans (liftR_keepsRepo _) (fun _ => ?_)
    exact Steps.bind KeepsRepo.trans (liftR_keepsRepo _) (fun _ => setNextXattrs_keepsRepo _)
  · exact Steps.bind KeepsRepo.trans (cacheXattrsContent_keepsRepo _)
      (fun _ => setNextXattrs_keepsRepo _)
  · exact Steps.bind KeepsRepo.trans (Steps.throw KeepsRepo.refl _)
      (fun _ => setNextXattrs_keepsRepo _)

theorem processXattrRef_keepsRepo : Steps KeepsRepo (processXattrRef e c) := by
  refine Steps.bind KeepsRepo.trans ensureNoPendingXattrs_keepsRepo (fun _ => ?_)
  split
  · exact Steps.throw KeepsRepo.refl _
  · refine Steps.bind KeepsRepo.trans (liftR_keepsRepo _) (fun _ => ?_)
    refine Steps.bind KeepsRepo.trans (liftR_keepsRepo _) (fun _ => ?_)
    exact Steps.bind KeepsRepo.trans (liftR_keepsRepo _)
      (fun _ => setNextXattrs_keepsRepo _)

theorem processSplitXattrsContent_keepsRepo :
    Steps KeepsRepo (processSplitXattrsContent lib e) := by
  refine Steps.bind KeepsRepo.trans (liftR_keepsRepo _) (fun _ => ?_)
  refine Steps.bind KeepsRepo.trans (liftR_keepsRepo _) (fun _ => ?_)
  exact Steps.bind KeepsRepo.trans (cacheXattrsContent_keepsRepo _)
    (fun _ => Steps.pure KeepsRepo.refl _)

theorem KeepsRepo.of_ok {α : Type} {x : ImportM α} {a : α} (hx : Steps KeepsRepo x)
    (h : x imp = .ok a imp') : KeepsRepo imp imp' := by
  have hstep := hx imp
  rw [h] at hstep
  exact hstep

/-- One write of a content object, the last step of all three kinds. -/
theorem writeFile_adds {o : FileObject}
    (h : (do let _ ← onRepo (Repo.writeFile lib (some c) o) : ImportM Unit) imp = .ok u imp') :
    Adds lib [(c, "file", e)] imp.repo imp'.repo ∧ imp'.data = imp.data := by
  obtain ⟨_, r, hr, h⟩ := onRepo_bind_ok h
  obtain ⟨_, _, rfl⟩ := Repo.writeFile_ok hr
  cases h
  exact ⟨Adds.of_file, rfl⟩

theorem importLargeRegfileObject_adds {x : Bytes}
    (h : importLargeRegfileObject lib e c x imp = .ok u imp') :
    Adds lib [(c, "file", e)] imp.repo imp'.repo ∧ imp'.data = imp.data := by
  obtain ⟨_, _, h⟩ := liftR_bind_ok h
  exact writeFile_adds h

theorem importSmallRegfileObject_adds {n : Nat} {x : Bytes}
    (h : importSmallRegfileObject lib e n c x imp = .ok u imp') :
    Adds lib [(c, "file", e)] imp.repo imp'.repo ∧ imp'.data = imp.data := by
  obtain ⟨⟨uid, gid, mode⟩, _, h⟩ := liftR_bind_ok h
  dsimp only at h
  split at h
  · exact nomatch h
  · obtain ⟨_, _, h⟩ := liftR_bind_ok h
    exact writeFile_adds h

theorem importSymlinkObject_adds {x : Bytes}
    (h : importSymlinkObject lib e c x imp = .ok u imp') :
    Adds lib [(c, "file", e)] imp.repo imp'.repo ∧ imp'.data = imp.data := by
  obtain ⟨_, _, h⟩ := liftR_bind_ok h
  obtain ⟨_, _, h⟩ := liftR_bind_ok h
  exact writeFile_adds h

/-- A content object is stored under its checksum, now or before. -/
theorem importContentObject_adds (h : importContentObject lib e c imp = .ok u imp') :
    Adds lib [(c, "file", e)] imp.repo imp'.repo ∧ imp'.data = imp.data := by
  unfold importContentObject at h
  obtain ⟨i, s, hget, h⟩ := bind_ok h
  cases hget
  obtain ⟨_, s, hset, h⟩ := bind_ok h
  cases hset
  cases hnext : imp.nextXattrs with
  | none => rw [hnext] at h; exact nomatch h
  | some p =>
      rw [hnext] at h
      dsimp only at h
      split at h
      · exact nomatch h
      · split at h
        · next hc =>
            cases h
            exact ⟨Adds.of_file_mem (Std.ExtTreeMap.mem_iff_contains.mpr hc), rfl⟩
        · cases hx : imp.xattrs[p.2]? with
          | none => rw [hx] at h; exact nomatch h
          | some x =>
              rw [hx] at h
              cases hty : e.header.entryType with
              | regular =>
                  simp only [hty] at h
                  split at h
                  · have hadds := importLargeRegfileObject_adds h
                    exact hadds
                  · have hadds := importSmallRegfileObject_adds h
                    exact hadds
              | symlink =>
                  simp only [hty] at h
                  have hadds := importSymlinkObject_adds h
                  exact hadds
              | link => simp only [hty] at h; exact nomatch h
              | directory => simp only [hty] at h; exact nomatch h
              | other f => simp only [hty] at h; exact nomatch h

/-- In commit mode nothing is tracked. -/
theorem trackImported_commit {o : Option Checksum} (hdata : imp.data = .commit o)
    (h : trackImported c imp = .ok u imp') : imp' = imp := by
  obtain ⟨i, s, hget, h⟩ := bind_ok h
  cases hget
  rw [hdata] at h
  cases h
  rfl

theorem importMetadata_adds {sfx : String} {ty : ObjectType}
    (hty : objtypeFromString sfx = some ty) (h : importMetadata lib e c ty imp = .ok u imp') :
    Adds lib [(c, sfx, e)] imp.repo imp'.repo ∧ imp'.data = imp.data := by
  cases ty with
  | dirTree =>
      obtain rfl : sfx = "dirtree" := by
        unfold objtypeFromString at hty
        grind
      obtain ⟨v, hv, h⟩ := liftR_bind_ok h
      obtain ⟨_, r, hr, h⟩ := onRepo_bind_ok h
      obtain ⟨_, _, rfl⟩ := Repo.writeDirtree_ok hr
      rw [assertEq_ok h, entryToVariant_eq_ok hv]
      exact ⟨Adds.of_dirtree, rfl⟩
  | dirMeta =>
      obtain rfl : sfx = "dirmeta" := by
        unfold objtypeFromString at hty
        grind
      obtain ⟨v, hv, h⟩ := liftR_bind_ok h
      obtain ⟨_, r, hr, h⟩ := onRepo_bind_ok h
      obtain ⟨_, _, rfl⟩ := Repo.writeDirmeta_ok hr
      rw [assertEq_ok h]
      exact ⟨Adds.of_dirmeta, rfl⟩
  | commit => exact nomatch h
  | commitMeta => exact nomatch h
  | file => exact nomatch h

/-- **One object in commit mode.** -/
theorem importObjectAs_adds {o : Option Checksum} {sfx : String} (hdata : imp.data = .commit o)
    (h : importObjectAs lib e c sfx imp = .ok u imp') :
    Adds lib [(c, sfx, e)] imp.repo imp'.repo ∧ imp'.data = .commit o := by
  unfold importObjectAs at h
  split at h
  · exact nomatch h
  split at h
  · next hsfx =>
      obtain ⟨_, s, hc, h⟩ := bind_ok h
      obtain ⟨hadds, hkeep⟩ := importContentObject_adds hc
      rw [trackImported_commit (hkeep.trans hdata) h, hsfx]
      exact ⟨hadds, hkeep.trans hdata⟩
  split at h
  · next hsfx =>
      have hk := KeepsRepo.of_ok processFileXattrs_keepsRepo h
      exact ⟨Adds.of_eq (by rw [hsfx]; decide) hk.1, hk.2.trans hdata⟩
  split at h
  · next hsfx =>
      have hk := KeepsRepo.of_ok processFileXattrsLink_keepsRepo h
      exact ⟨Adds.of_eq (by rw [hsfx]; decide) hk.1, hk.2.trans hdata⟩
  split at h
  · next hsfx =>
      have hk := KeepsRepo.of_ok processXattrRef_keepsRepo h
      exact ⟨Adds.of_eq (by rw [hsfx]; decide) hk.1, hk.2.trans hdata⟩
  obtain ⟨ty, hty, h⟩ := liftR_bind_ok h
  obtain ⟨i, s, hget, h⟩ := bind_ok h
  cases hget
  rw [hdata] at h
  obtain ⟨hadds, hkeep⟩ := importMetadata_adds (okOr_eq_ok.mp hty) h
  exact ⟨hadds, hkeep.trans hdata⟩

theorem importObject_adds {o : Option Checksum} {p : Path} (hdata : imp.data = .commit o)
    (h : importObject lib e p imp = .ok u imp') :
    Adds lib (offer e p) imp.repo imp'.repo ∧ imp'.data = .commit o := by
  obtain ⟨⟨parentname, name, sfx⟩, hpath, h⟩ := liftR_bind_ok h
  obtain ⟨x, hsum, h⟩ := liftR_bind_ok h
  have hoffer : offer e p = [(x, sfx, e)] := by
    simp only [offer, objectOfPath, hpath, hsum]
    rfl
  rw [hoffer]
  exact importObjectAs_adds hdata h

/-- **One round of the loop.** -/
theorem importEntry_adds {o : Option Checksum} {item : Except String (Entry × Path)}
    (hdata : imp.data = .commit o) (h : importEntry lib item imp = .ok u imp') :
    Adds lib (offerItem item) imp.repo imp'.repo ∧ imp'.data = .commit o := by
  cases item with
  | error m => exact nomatch h
  | ok ep =>
      obtain ⟨e, p⟩ := ep
      simp only [importEntry] at h
      simp only [offerItem]
      cases hp : stripPrefix [Component.normal "objects"] p with
      | some q =>
          rw [hp] at h
          exact importObject_adds hdata h
      | none =>
          rw [hp] at h
          dsimp only at h
          split at h
          · have hk := KeepsRepo.of_ok processSplitXattrsContent_keepsRepo h
            rw [hk.1]
            exact ⟨Adds.refl lib _, hk.2.trans hdata⟩
          · cases h
            exact ⟨Adds.refl lib _, hdata⟩

/-- **The whole loop.** -/
theorem importObjectsImpl_adds {o : Option Checksum} {ents : List (Except String (Entry × Path))}
    (hdata : imp.data = .commit o) (h : importObjectsImpl lib ents imp = .ok u imp') :
    Adds lib (ents.flatMap offerItem) imp.repo imp'.repo ∧ imp'.data = .commit o := by
  unfold importObjectsImpl at h
  induction ents generalizing imp with
  | nil => cases h; exact ⟨Adds.refl lib _, hdata⟩
  | cons item ents ih =>
      rw [List.forM_cons] at h
      obtain ⟨_, s, hitem, h⟩ := bind_ok h
      obtain ⟨hadds, hs⟩ := importEntry_adds hdata hitem
      obtain ⟨hrest, hdata'⟩ := ih hs h
      rw [List.flatMap_cons]
      exact ⟨hadds.trans hrest, hdata'⟩

-- ── The head of the stream ────────────────────────────────────────────────────

/-- The repository after the commit object of a stream was written: it holds the commit
    unless it had one under that checksum, and nothing else has changed. -/
structure AddsCommit (c : Checksum) (commit : Commit) (r r' : Repo) : Prop where
  commits : r'.commits = r.commits.insertIfNew c commit
  dirtrees : r'.dirtrees = r.dirtrees
  dirmetas : r'.dirmetas = r.dirmetas
  files : r'.files = r.files

theorem writePartialCommit_adds {commit : Commit}
    (h : writePartialCommit lib c commit imp = .ok u imp') :
    AddsCommit c commit imp.repo imp'.repo ∧ imp'.data = imp.data := by
  obtain ⟨_, r₁, hmark, h⟩ := onRepo_bind_ok h
  cases hmark
  obtain ⟨_, r₂, hwrite, h⟩ := onRepo_bind_ok h
  obtain ⟨_, _, rfl⟩ := Repo.writeCommit_ok hwrite
  rw [assertEq_ok h]
  exact ⟨⟨rfl, rfl, rfl, rfl⟩, rfl⟩

/-- A path that `parse_metadata_entry` accepts is the path of an object. -/
theorem objectOfPath_of_parse {p : Path} {ty : ObjectType} (h : parseMetadataEntry p = .ok (c, ty)) :
    ∃ sfx, objectOfPath p = some (c, sfx) ∧ objtypeFromString sfx = some ty := by
  obtain ⟨⟨parentname, name, sfx⟩, hpath, h⟩ := result_bind_eq_ok.mp h
  obtain ⟨x, hsum, h⟩ := result_bind_eq_ok.mp h
  obtain ⟨ty', hty, h⟩ := result_bind_eq_ok.mp h
  cases h
  exact ⟨sfx, by simp only [objectOfPath, hpath, hsum], okOr_eq_ok.mp hty⟩

/-- Detached metadata is no object of the store. -/
theorem adds_commitmeta {p : Path} {d : Dict} {x : Checksum}
    (h : parseMetadataEntry p = .ok (c, .commitMeta)) {r r' : Repo}
    (hw : Repo.writeCommitDetachedMetadata x d r = .ok u r') : Adds lib (offer e p) r r' := by
  obtain ⟨sfx, hobj, hty⟩ := objectOfPath_of_parse h
  have hsfx : sfx = "commitmeta" := by
    unfold objtypeFromString at hty
    grind
  have hoffer : offer e p = [(c, "commitmeta", e)] := by
    simp only [offer, hobj, hsfx]
    rfl
  cases hw
  rw [hoffer]
  exact ⟨rfl, by simp [Repo.record, addDirtree], by simp [Repo.record], by simp [Repo.record]⟩

theorem importNextObject_adds {o : Option Checksum} {p : Path} (hdata : imp.data = .commit o)
    (h : importNextObject lib c e p imp = .ok u imp') :
    Adds lib (offer e p) imp.repo imp'.repo ∧ imp'.data = .commit o := by
  obtain ⟨⟨x, ty⟩, hparse, h⟩ := liftR_bind_ok h
  cases ty with
  | commitMeta =>
      obtain ⟨d, _, h⟩ := liftR_bind_ok h
      obtain ⟨r, hr, rfl⟩ := onRepo_ok h
      exact ⟨adds_commitmeta hparse hr, hdata⟩
  | commit => exact importObject_adds hdata h
  | dirTree => exact importObject_adds hdata h
  | dirMeta => exact importObject_adds hdata h
  | file => exact importObject_adds hdata h

/-- Both ways to handle the commit and the entry after it. -/
theorem importHead_adds {commit : Commit} {p : Path} {next : Checksum × ObjectType}
    {o : Option Checksum} (hdata : imp.data = .commit o)
    (hparse : parseMetadataEntry p = .ok next)
    (h : importHead lib c commit e p next imp = .ok u imp') :
    ∃ r, AddsCommit c commit imp.repo r ∧ Adds lib (offer e p) r imp'.repo := by
  obtain ⟨i, s, hget, h⟩ := bind_ok h
  cases hget
  cases hremote : imp.remote with
  | none =>
      rw [hremote] at h
      obtain ⟨_, s, hw, h⟩ := bind_ok h
      obtain ⟨hadds, hkeep⟩ := writePartialCommit_adds hw
      exact ⟨s.repo, hadds, (importNextObject_adds (hkeep.trans hdata) h).1⟩
  | some remote =>
      rw [hremote] at h
      obtain ⟨x, ty⟩ := next
      by_cases hty : ty = .commitMeta
      · subst hty
        simp only [importVerified] at h
        rw [if_neg (by simp)] at h
        split at h
        · exact nomatch h
        obtain ⟨d, _, h⟩ := liftR_bind_ok h
        obtain ⟨_, r₁, hverify, h⟩ := onRepo_bind_ok h
        obtain ⟨_, s, hw, h⟩ := bind_ok h
        obtain ⟨hadds, hkeep⟩ := writePartialCommit_adds hw
        obtain ⟨r, hr, rfl⟩ := onRepo_ok h
        refine ⟨s.repo, ?_, adds_commitmeta hparse hr⟩
        -- accepting a signature leaves the objects alone
        unfold Repo.signatureVerifyCommitData at hverify
        split at hverify
        · cases hverify
          exact ⟨hadds.commits, hadds.dirtrees, hadds.dirmetas, hadds.files⟩
        · exact nomatch hverify
      · simp only [importVerified] at h
        rw [if_pos hty] at h
        exact nomatch h

/-- The commit object at the head of a stream. -/
def streamCommit (lib : Libostree) (s : Stream) : Option (Checksum × Commit) :=
  match filterEntries s with
  | .ok (e, p) :: _ =>
      match parseMetadataEntry p with
      | .ok (c, _) => some (c, lib.commit.ofBytes e.data)
      | .error _ => none
  | _ => none

theorem nextEntry_ok {msg : String} {ents rest : List (Except String (Entry × Path))}
    {x : Entry × Path} (h : nextEntry msg ents = .ok (x, rest)) : ents = .ok x :: rest := by
  unfold nextEntry at h
  split at h
  · exact nomatch h
  · exact nomatch h
  · cases h; rfl

/-- **A successful `import_commit`** has written the commit at the head of the stream and
    everything that the rest of the stream offers. -/
theorem importCommit_adds {s : Stream} {remote : Option String} {r : Repo}
    (h : importCommit lib s (Importer.newForCommit remote r) = .ok u imp') :
    ∃ c commit r₁, streamCommit lib s = some (c, commit) ∧ imp'.data = .commit (some c) ∧
      AddsCommit c commit r r₁ ∧ Adds lib (offered s) r₁ imp'.repo := by
  obtain ⟨_, i, hfresh, h⟩ := bind_ok h
  cases hfresh
  obtain ⟨⟨⟨e₀, p₀⟩, ents⟩, hnext, h⟩ := liftR_bind_ok h
  have hents := nextEntry_ok hnext
  dsimp only at h
  split at h
  · exact nomatch h
  obtain ⟨⟨c, ty⟩, hparse, h⟩ := liftR_bind_ok h
  dsimp only at h
  split at h
  · exact nomatch h
  obtain ⟨commit, hcommit, h⟩ := liftR_bind_ok h
  obtain ⟨⟨⟨e₁, p₁⟩, rest⟩, hnext₁, h⟩ := liftR_bind_ok h
  have hents₁ := nextEntry_ok hnext₁
  obtain ⟨next, hparse₁, h⟩ := liftR_bind_ok h
  obtain ⟨_, i, hhead, h⟩ := bind_ok h
  obtain ⟨r₁, hadds₁, hadds₂⟩ := importHead_adds (o := none) rfl hparse₁ hhead
  obtain ⟨_, j, hmodify, h⟩ := bind_ok h
  cases hmodify
  obtain ⟨hadds₃, hdata⟩ := importObjectsImpl_adds (o := some c) rfl h
  refine ⟨c, commit, r₁, ?_, hdata, hadds₁, ?_⟩
  · simp only [streamCommit, hents, hparse, entryToVariant_eq_ok hcommit]
  · have hoffered : offered s = offer e₁ p₁ ++ rest.flatMap offerItem := by
      simp only [offered, hents, hents₁]
    rw [hoffered]
    exact hadds₂.trans hadds₃

/-- **A successful `import_tar`**, with the partial mark gone. -/
theorem importTar_adds {s : Stream} {remote : Option String} {r r' : Repo}
    (h : importTar lib s remote r = .ok c r') :
    c ∉ r'.partialCommits ∧ ∃ commit r₁, streamCommit lib s = some (c, commit) ∧
      AddsCommit c commit r r₁ ∧ Adds lib (offered s) r₁ r' := by
  obtain ⟨c', r₂, htx, h⟩ := bind_ok h
  obtain ⟨_, r₃, hmark, h⟩ := bind_ok h
  cases hmark
  cases h
  unfold Repo.autoTransaction withImporter at htx
  split at htx
  · next hok =>
      cases htx
      split at hok
      · next hbody =>
          cases hok
          obtain ⟨_, i, himport, hfinish⟩ := bind_ok hbody
          obtain ⟨c', commit, r₁, hstream, hdata, hadds₁, hadds₂⟩ := importCommit_adds himport
          obtain ⟨j, t, hget, hfinish⟩ := bind_ok hfinish
          cases hget
          rw [hdata] at hfinish
          cases hfinish
          refine ⟨by simp [Repo.record], commit, r₁, hstream, hadds₁, ?_⟩
          exact ⟨hadds₂.commits, hadds₂.dirtrees, hadds₂.dirmetas, hadds₂.files⟩
      · exact nomatch hok
  · exact nomatch htx

end Runs

-- ── Completeness ──────────────────────────────────────────────────────────────

/-- The commit is stored with everything that it reaches, and is not marked as partial. -/
def CompleteCommit (r : Repo) (c : Checksum) : Prop :=
  c ∉ r.partialCommits ∧ ∃ commit, r.commits[c]? = some commit ∧ r.Complete commit

/-- The stream and the repository together hold everything that the commit reaches, where
    a directory is read from the repository if it is there and from the stream if not. -/
def Supplied (lib : Libostree) (s : Stream) (r : Repo) (c : Checksum) : Prop :=
  ∃ commit, r.commits[c]?.or ((streamCommit lib s).map (·.2)) = some commit ∧
    ∀ ty x, ({ dirtrees := (offered s).foldl (addDirtree lib) r.dirtrees } : Objects).CommitReaches
      commit ty x → r.Has ty x ∨ ∃ e, (x, objectSuffix ty, e) ∈ offered s

section Complete

variable {lib : Libostree} {s : Stream} {remote : Option String} {r r' : Repo} {c : Checksum}

theorem mem_foldl_addDirtree {xs : List (Checksum × String × Entry)}
    {m : Std.ExtTreeMap Checksum DirTree} {x : Checksum} :
    x ∈ xs.foldl (addDirtree lib) m ↔ x ∈ m ∨ ∃ e, (x, "dirtree", e) ∈ xs := by
  induction xs generalizing m with
  | nil => simp
  | cons y xs ih =>
      obtain ⟨k, sfx, e⟩ := y
      rw [List.foldl_cons, ih]
      by_cases hsfx : sfx = "dirtree"
      · subst hsfx
        simp only [addDirtree, if_true, Std.ExtTreeMap.mem_insertIfNew_iff, List.mem_cons,
          Prod.mk.injEq, true_and, exists_or, exists_and_left, exists_eq, and_true, or_assoc]
      · simp [addDirtree, hsfx, Ne.symm hsfx]

/-- What is stored after an import was there before or is offered by the stream. -/
theorem has_iff_of_adds {xs : List (Checksum × String × Entry)} (h : Adds lib xs r r')
    {ty : ObjectType} (hty : ty = .dirTree ∨ ty = .dirMeta ∨ ty = .file) (x : Checksum) :
    r'.Has ty x ↔ r.Has ty x ∨ ∃ e, (x, objectSuffix ty, e) ∈ xs := by
  rcases hty with rfl | rfl | rfl
  · show x ∈ r'.dirtrees ↔ _
    rw [h.dirtrees]
    exact mem_foldl_addDirtree
  · exact h.dirmetas x
  · exact h.files x

/-- What the stream adds completes the commit exactly when it is supplied. -/
theorem complete_iff_of_adds {commit : Commit} {r₁ : Repo} (hstream : streamCommit lib s = some (c, commit))
    (hcommit : AddsCommit c commit r r₁) (hadds : Adds lib (offered s) r₁ r') :
    (∃ commit, r'.commits[c]? = some commit ∧ r'.Complete commit) ↔ Supplied lib s r c := by
  have hlookup : r'.commits[c]? = r.commits[c]?.or ((streamCommit lib s).map (·.2)) := by
    rw [hadds.commits, hcommit.commits, Std.ExtTreeMap.lookup_insertIfNew, if_pos rfl, hstream]
    rfl
  have hreach : ∀ k ty x, r'.CommitReaches k ty x ↔
      ({ dirtrees := (offered s).foldl (addDirtree lib) r.dirtrees } : Objects).CommitReaches
        k ty x := by
    intro k ty x
    refine commitReaches_congr ?_
    rw [hadds.dirtrees, hcommit.dirtrees]
  have hhas : ∀ ty x, ty = .dirTree ∨ ty = .dirMeta ∨ ty = .file →
      (r'.Has ty x ↔ r.Has ty x ∨ ∃ e, (x, objectSuffix ty, e) ∈ offered s) := by
    intro ty x hty
    rw [has_iff_of_adds hadds hty x]
    rcases hty with rfl | rfl | rfl
    · simp only [Objects.Has, hcommit.dirtrees]
    · simp only [Objects.Has, hcommit.dirmetas]
    · simp only [Objects.Has, hcommit.files]
  unfold Supplied
  rw [hlookup]
  refine exists_congr fun k => and_congr_right fun _ => ?_
  refine forall_congr' fun ty => forall_congr' fun x => ?_
  rw [hreach]
  exact imp_congr_right fun hx => hhas ty x hx.objtype

/-- **An import completes its commit exactly when** the stream and the repository together
    supply everything that the commit reaches. -/
theorem importTar_complete_iff (h : importTar lib s remote r = .ok c r') :
    CompleteCommit r' c ↔ Supplied lib s r c := by
  obtain ⟨hmark, commit, r₁, hstream, hcommit, hadds⟩ := importTar_adds h
  unfold CompleteCommit
  rw [and_iff_right hmark]
  exact complete_iff_of_adds hstream hcommit hadds

/-- The dirtrees of a stream. -/
def streamTrees (lib : Libostree) (s : Stream) : Std.ExtTreeMap Checksum DirTree :=
  (offered s).foldl (addDirtree lib) ∅

/-- A directory is read from the repository, or else from the stream. -/
theorem lookup_foldl_addDirtree (xs : List (Checksum × String × Entry))
    (m : Std.ExtTreeMap Checksum DirTree) (x : Checksum) :
    (xs.foldl (addDirtree lib) m)[x]? = m[x]?.or (xs.foldl (addDirtree lib) ∅)[x]? := by
  induction xs generalizing m with
  | nil => rw [List.foldl_nil, List.foldl_nil, Std.ExtTreeMap.lookup_empty, Option.or_none]
  | cons y xs ih =>
      have hone : (addDirtree lib m y)[x]? = m[x]?.or (addDirtree lib ∅ y)[x]? := by
        rw [addDirtree, addDirtree]
        split
        · rw [Std.ExtTreeMap.lookup_insertIfNew, Std.ExtTreeMap.lookup_insertIfNew,
            Std.ExtTreeMap.lookup_empty, Option.none_or]
        · rw [Std.ExtTreeMap.lookup_empty, Option.or_none]
      rw [List.foldl_cons, List.foldl_cons, ih, ih (addDirtree lib ∅ y), hone, Option.or_assoc]

/-- **A stream that holds all objects of its commit** supplies it to every repository that has
    nothing else under the names of the commit and its directories. -/
theorem supplied_of_stream (h : Supplied lib s {} c)
    (hcommit : ∀ v, r.commits[c]? = some v → (streamCommit lib s).map (·.2) = some v)
    (htrees : ∀ (x : Checksum) d, r.dirtrees[x]? = some d → x ∈ streamTrees lib s →
      (streamTrees lib s)[x]? = some d) : Supplied lib s r c := by
  obtain ⟨commit, hlookup, hreach⟩ := h
  rw [Std.ExtTreeMap.lookup_empty, Option.none_or] at hlookup
  have hoffered : ∀ ty x, ({ dirtrees := streamTrees lib s } : Objects).CommitReaches commit ty x →
      ∃ e, (x, objectSuffix ty, e) ∈ offered s := by
    intro ty x hx
    rcases hreach ty x hx with hhas | hoffer
    · rcases hx.objtype with rfl | rfl | rfl
      · exact absurd hhas Std.ExtTreeMap.not_mem_empty
      · exact absurd hhas Std.ExtTreeMap.not_mem_empty
      · exact absurd hhas Std.ExtTreeMap.not_mem_empty
    · exact hoffer
  refine ⟨commit, ?_, fun ty x hx => .inr (hoffered ty x ?_)⟩
  · cases hr : r.commits[c]? with
    | none => rw [Option.none_or, hlookup]
    | some v => rw [Option.some_or, ← hcommit v hr, hlookup]
  · -- on the way, both repositories have the directories of the stream
    refine hx.imp_right (fun hx => hx.transfer (fun t ht => ?_))
    have hmem : t ∈ streamTrees lib s :=
      mem_foldl_addDirtree.mpr (.inr (hoffered .dirTree t (.inr ht)))
    obtain ⟨d, hd⟩ := Std.ExtTreeMap.mem_iff_lookup.mp hmem
    show ((offered s).foldl (addDirtree lib) r.dirtrees)[t]? = (streamTrees lib s)[t]?
    rw [lookup_foldl_addDirtree]
    cases hr : r.dirtrees[t]? with
    | none => exact Option.none_or
    | some d' => rw [Option.some_or, htrees t d' hr hmem]

end Complete

-- ── A complete and a truncated stream ─────────────────────────────────────────

/-- A destination that has the same objects is complete when the source is. -/
theorem complete_of_sameObject {src dst : Repo} {commit : Commit}
    (hsrc : src.Complete commit) (hsame : ∀ ty x, src.CommitReaches commit ty x →
      SameObject src.toObjects dst.toObjects ty x) : dst.Complete commit := by
  intro ty x hx
  have hreach : src.CommitReaches commit ty x := by
    rcases hx with hx | hx
    · exact .inl hx
    · exact .inr (hx.transfer (fun t ht => hsame .dirTree t (.inr ht)))
  have hhas := hsrc ty x hreach
  have heq := hsame ty x hreach
  rcases hreach.objtype with rfl | rfl | rfl
  · exact Std.ExtTreeMap.mem_iff_lookup.mpr (heq ▸ Std.ExtTreeMap.mem_iff_lookup.mp hhas)
  · exact Std.ExtTreeMap.mem_iff_lookup.mpr (heq ▸ Std.ExtTreeMap.mem_iff_lookup.mp hhas)
  · exact Std.ExtTreeMap.mem_iff_lookup.mpr (heq ▸ Std.ExtTreeMap.mem_iff_lookup.mp hhas)

/-- The stream of a small commit supplies everything. -/
theorem sampleCommit_complete : ∃ (es : List Entry) (dst : Repo),
    importTar sampleTables.lib (es.map Except.ok) none {} = .ok sampleCommitSum dst ∧
    CompleteCommit dst sampleCommitSum ∧
    Supplied sampleTables.lib (es.map Except.ok) {} sampleCommitSum := by
  obtain ⟨es, dst, _, himport, hcommit, _, hsame⟩ := exportCommit_importTar
    (if_pos isSha256_sampleCommitSum) sampleCommit_stored sampleTar_keepsLinks depthLt_sampleTree
    ((relinkable_iff_symlinksOnce (fun ty x hx => (sampleCommit_stored.intact ty x hx).has) 2).mpr
      (.inr sampleCommit_symlinksOnce))
  have hall := sysrootElsewhere_iff.mp sampleCommit_sysrootElsewhere
  have hcomplete : CompleteCommit dst sampleCommitSum :=
    ⟨(importTar_adds himport).1, sampleCommit, hcommit, complete_of_sameObject
      (fun ty x hx => (sampleCommit_stored.intact ty x hx).has)
      (fun ty x hx => (hsame ty x hx).mpr (hall ty x hx))⟩
  exact ⟨es, dst, himport, hcomplete, (importTar_complete_iff himport).mp hcomplete⟩

/-- The first two entries of that stream. -/
def truncatedStream : Stream :=
  [.ok (dataEntry sampleCommitSum "commit" (plainCommitBytes sampleCommit)),
   .ok (dataEntry sampleMetaSum "dirmeta" sampleMetaBytes)]

/-- **A truncated stream is imported**, and the commit is taken for complete without its
    root directory. -/
theorem truncatedStream_not_complete : ∃ dst,
    importTar sampleTables.lib truncatedStream none {} = .ok sampleCommitSum dst ∧
    ¬ CompleteCommit dst sampleCommitSum := by
  have hmeta : IntactDirmeta sampleTables.lib sampleRepo.toObjects sampleCommit.dirmeta
      sampleMeta := by
    obtain ⟨m, hm⟩ := intact_sampleMeta
    obtain rfl : sampleMeta = m := Option.some.inj (lookup_sampleMeta.symm.trans hm.1)
    exact hm
  have hpre : ∀ e ∈ ([] : List Entry), filterEntry e = none := fun _ h => nomatch h
  have himport := importCommit_head sampleCommit_stored hmeta hpre [] {}
  have hstream : truncatedStream = ([] ++ (headEntries sampleTables.lib sampleCommitSum
      sampleCommit sampleRepo.commitmetas[sampleCommitSum]? ++ dataEntry sampleCommit.dirmeta
        "dirmeta" (sampleTables.lib.dirmeta.toBytes sampleMeta) :: [])).map Except.ok := by
    have hcm : sampleRepo.commitmetas[sampleCommitSum]? = none := Std.ExtTreeMap.lookup_empty _
    rw [hcm, toBytes_sampleMeta]
    simp only [headEntries, toBytes_sampleCommit]
    rfl
  rw [← hstream] at himport
  refine ⟨_, importTar_of_importCommit himport rfl, ?_⟩
  rintro ⟨_, commit, hcommit, hcomplete⟩
  -- the destination has the commit, but no dirtree at all
  have hroot := hcomplete .dirTree commit.contents (.inr (.self _))
  have hempty : commit.contents ∈ (∅ : Std.ExtTreeMap Checksum DirTree) := by
    simpa only [Objects.Has, Repo.record, headRepo_dirtrees] using hroot
  exact absurd hempty Std.ExtTreeMap.not_mem_empty

end OstreeExt.Tar
