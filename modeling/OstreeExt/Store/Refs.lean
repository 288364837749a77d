import OstreeExt.Repo

/-!
# Ref names of the container store

Layers and images are kept under refs whose names are escaped digests and escaped image
names.  The escaping can be undone, so a ref name determines what it stands for; and the
namespaces do not overlap, so writing a layer ref never touches an image or a deployment.
-/

namespace OstreeExt.Store

open OstreeExt Refescape Repo

/-- `LAYER_PREFIX` -/
def layerPrefix : String := "ostree/container/blob"

/-- `IMAGE_PREFIX` -/
def imagePrefix : String := "ostree/container/image"

/-- `BASE_IMAGE_PREFIX` -/
def baseImagePrefix : String := "ostree/container/baseimage"

/-- `OSTREE_BASE_DEPLOYMENT_REFS` -/
def ostreeBaseDeploymentRefs : List String := ["ostree/0", "ostree/1"]

/-- `RPMOSTREE_BASE_REFS` -/
def rpmostreeBaseRefs : List String := ["rpmostree/base"]

/-- `ref_for_blob_digest` -/
def refForBlobDigest (d : Digest) : Result String := prefixEscapeForRef layerPrefix d

/-- `ref_for_layer` -/
def refForLayer (l : Descriptor) : Result String := refForBlobDigest l.digest

/-- `ref_for_image` -/
def refForImage (l : ImageReference) : Result String := prefixEscapeForRef imagePrefix l.display

-- ── Names under a prefix ──────────────────────────────────────────────────────

theorem refUnder_iff {p r : String} :
    refUnder p r = true ↔ r = p ∨ (p.toList ++ ['/']) <+: r.toList := by
  show decide (r = p ∨ ((p ++ "/").toList.isPrefixOf r.toList) = true) = true ↔ _
  rw [decide_eq_true_iff, List.isPrefixOf_iff_prefix, String.toList_append]
  exact Iff.rfl

/-- Either way the prefix is one of characters. -/
theorem prefix_of_refUnder {p r : String} (h : refUnder p r = true) : p.toList <+: r.toList := by
  rcases refUnder_iff.mp h with rfl | h
  · exact List.prefix_refl _
  · exact (List.prefix_append _ _).trans h

/-- A ref under two prefixes puts one of them under the other. -/
theorem refUnder_comparable {p q r : String} (hp : refUnder p r = true)
    (hq : refUnder q r = true) : refUnder p q = true ∨ refUnder q p = true := by
  rcases refUnder_iff.mp hp with rfl | hp'
  · exact .inr hq
  rcases refUnder_iff.mp hq with rfl | hq'
  · exact .inl hp
  -- both continue with a slash, so the shorter one with its slash is a prefix of the other
  have hlen : p.toList.length = q.toList.length ∨ p.toList.length < q.toList.length ∨
      q.toList.length < p.toList.length := by omega
  rcases hlen with heq | hlt | hlt
  · have hpq : p.toList ++ ['/'] <+: q.toList ++ ['/'] :=
      List.prefix_of_prefix_length_le hp' hq' (by simp [heq])
    have hsame := hpq.eq_of_length (by simp [heq])
    refine .inl (refUnder_iff.mpr (.inl ?_))
    exact (String.toList_inj.mp (List.append_cancel_right hsame)).symm
  · refine .inl (refUnder_iff.mpr (.inr ?_))
    exact List.prefix_of_prefix_length_le hp' (prefix_of_refUnder hq) (by simp; omega)
  · refine .inr (refUnder_iff.mpr (.inr ?_))
    exact List.prefix_of_prefix_length_le hq' (prefix_of_refUnder hp) (by simp; omega)

/-- An escaped name with its prefix. -/
theorem prefixEscapeForRef_eq {pfx s r : String} (h : prefixEscapeForRef pfx s = .ok r) :
    ∃ l, r.toList = pfx.toList ++ '/' :: l := by
  have hdef : prefixEscapeForRef pfx s
      = (escapeForRef s.toList).map (fun r => pfx ++ "/" ++ String.ofList r) := rfl
  rw [hdef] at h
  cases he : escapeForRef s.toList with
  | error e => rw [he] at h; exact absurd h (by simp [Except.map])
  | ok l =>
      rw [he] at h
      injection h with h
      exact ⟨l, by rw [← h]; simp⟩

theorem refUnder_of_escape {pfx s r : String} (h : prefixEscapeForRef pfx s = .ok r) :
    refUnder pfx r = true := by
  obtain ⟨l, hl⟩ := prefixEscapeForRef_eq h
  refine refUnder_iff.mpr (.inr ⟨l, ?_⟩)
  rw [hl, List.append_assoc]
  rfl

/-- **The escaped name determines the name.** -/
theorem prefixEscapeForRef_inj {pfx s t r : String} (hs : prefixEscapeForRef pfx s = .ok r)
    (ht : prefixEscapeForRef pfx t = .ok r) : s = t :=
  Except.ok.inj ((unprefixUnescapeRef_prefixEscapeForRef hs).symm.trans
    (unprefixUnescapeRef_prefixEscapeForRef ht))

/-- **No two references have one ref.** -/
theorem refForImage_inj {i j : ImageReference} {ref : String} (hi : refForImage i = .ok ref)
    (hj : refForImage j = .ok ref) : i = j :=
  ImageReference.display_inj (prefixEscapeForRef_inj hi hj)

/-- No escaped name is a checksum: it has a slash. -/
theorem not_isSha256_of_escape {pfx s r : String} (h : prefixEscapeForRef pfx s = .ok r) :
    ¬ IsSha256 r := by
  obtain ⟨l, hl⟩ := prefixEscapeForRef_eq h
  intro hsha
  have hslash := hsha.2 '/' (by rw [hl]; simp)
  exact absurd hslash (by decide)

theorem resolveRev_of_escape {pfx s ref : String} (h : prefixEscapeForRef pfx s = .ok ref)
    (r : Repo) : r.resolveRev ref = r.refs[ref]? := if_neg (not_isSha256_of_escape h)

theorem requireRev_of_escape {pfx s ref : String} (h : prefixEscapeForRef pfx s = .ok ref)
    (r : Repo) : r.requireRev ref = okOr ("Refspec '" ++ ref ++ "' not found") r.refs[ref]? :=
  if_neg (not_isSha256_of_escape h)

-- ── What can be escaped ───────────────────────────────────────────────────────

/-- A text without NUL characters is escaped. -/
theorem escapeLoop_ok {s : List Char} (h : '\x00' ∉ s) (prev : Bool) :
    ∃ r, escapeLoop prev s = .ok r := by
  induction s generalizing prev with
  | nil => exact ⟨[], rfl⟩
  | cons c s ih =>
      have hc : c ≠ '\x00' := fun hc => h (hc ▸ List.mem_cons_self ..)
      obtain ⟨r, hr⟩ := ih (fun hs => h (List.mem_cons_of_mem _ hs)) c.isAlphanum
      simp only [escapeLoop]
      rw [if_neg hc, hr]
      exact ⟨_, rfl⟩

theorem prefixEscapeForRef_ok {s : String} (pfx : String) (hne : s ≠ "") (h : '\x00' ∉ s.toList) :
    ∃ r, prefixEscapeForRef pfx s = .ok r := by
  obtain ⟨l, hl⟩ := escapeLoop_ok h false
  have hempty : s.toList.isEmpty = false := by
    rw [List.isEmpty_eq_false_iff]
    exact fun hs => hne (String.toList_inj.mp hs)
  have hescape : escapeForRef s.toList = .ok l := by
    rw [escapeForRef, hempty]
    exact hl
  refine ⟨pfx ++ "/" ++ String.ofList l, ?_⟩
  rw [prefixEscapeForRef, hescape]
  rfl

end OstreeExt.Store
