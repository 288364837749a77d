import OstreeExt.Refescape

/-!
# Image references

`Transport`, `ImageReference`, `SignatureSource` and `OstreeImageReference` of
`container/mod.rs`, with the display and parse functions through which an image name
becomes an ostree ref and back.
-/

namespace OstreeExt

/-- A backend/transport for OCI/Docker images. -/
inductive Transport where
  | registry
  | ociDir
  | ociArchive
  | dockerArchive
  | containerStorage
  | dir
  deriving DecidableEq, Repr

/-- Combination of a remote image reference and transport. -/
structure ImageReference where
  transport : Transport
  name : String
  deriving DecidableEq, Repr

/-- Policy for signature verification. -/
inductive SignatureSource where
  | ostreeRemote (remote : String)
  | containerPolicy
  | containerPolicyAllowInsecure
  deriving DecidableEq, Repr

/-- A signature verification mechanism and a container image reference. -/
structure OstreeImageReference where
  sigverify : SignatureSource
  imgref : ImageReference
  deriving DecidableEq, Repr

/-- `Transport::try_from(&str)`. -/
def Transport.tryFrom (value : String) : Result Transport :=
  if value = "registry" ∨ value = "docker" then .ok .registry
  else if value = "oci" then .ok .ociDir
  else if value = "oci-archive" then .ok .ociArchive
  else if value = "docker-archive" then .ok .dockerArchive
  else if value = "containers-storage" then .ok .containerStorage
  else if value = "dir" then .ok .dir
  else .error (.err ("Unknown transport '" ++ value ++ "'"))

/-- `Display for Transport`. -/
def Transport.display : Transport → String
  | .registry => "docker://"
  | .ociArchive => "oci-archive:"
  | .dockerArchive => "docker-archive:"
  | .ociDir => "oci:"
  | .containerStorage => "containers-storage:"
  | .dir => "dir:"

/-- `ImageReference::try_from(&str)`. -/
def ImageReference.tryFrom (value : String) : Result ImageReference :=
  match splitOnce ':' value.toList with
  | none => .error (.err ("Missing ':' in " ++ value))
  | some (transportName, name) =>
      (Transport.tryFrom (String.ofList transportName)).bind fun transport =>
        if name.isEmpty then .error (.err ("Invalid empty name in " ++ value))
        else if String.ofList transportName = "docker" then
          match stripPrefix ['/', '/'] name with
          | none => .error (.err ("Missing // in docker:// in " ++ value))
          | some name => .ok { transport, name := String.ofList name }
        else .ok { transport, name := String.ofList name }

/-- The scheme of an `OstreeImageReference`, and what it leaves to be parsed as an
    `ImageReference`. -/
def OstreeImageReference.splitScheme (value : String) : Result (SignatureSource × String) :=
  match splitOnce ':' value.toList with
  | none => .error (.err ("Missing ':' in " ++ value))
  | some (first, second) =>
      let first := String.ofList first
      if first = "ostree-image-signed" then .ok (.containerPolicy, String.ofList second)
      else if first = "ostree-unverified-image" then
        .ok (.containerPolicyAllowInsecure, String.ofList second)
      else if first = "ostree-unverified-registry" then
        .ok (.containerPolicyAllowInsecure, "registry:" ++ String.ofList second)
      else if first = "ostree-remote-registry" then
        match splitOnce ':' second with
        | none => .error (.err ("Missing second ':' in " ++ value))
        | some (remote, rest) =>
            .ok (.ostreeRemote (String.ofList remote), "registry:" ++ String.ofList rest)
      else if first = "ostree-remote-image" then
        match splitOnce ':' second with
        | none => .error (.err ("Missing second ':' in " ++ value))
        | some (remote, rest) => .ok (.ostreeRemote (String.ofList remote), String.ofList rest)
      else .error (.err ("Invalid ostree image reference scheme: " ++ first))

/-- `OstreeImageReference::try_from(&str)`. -/
def OstreeImageReference.tryFrom (value : String) : Result OstreeImageReference := do
  let (sigverify, rest) ← OstreeImageReference.splitScheme value
  let imgref ← ImageReference.tryFrom rest
  .ok { sigverify, imgref }

/-- `Display for ImageReference`. -/
def ImageReference.display (i : ImageReference) : String :=
  i.transport.display ++ i.name

/-- The display form of a transport, split at its first colon: the name that
    `Transport.tryFrom` reads and what stands between it and the image name. -/
def Transport.displayParts : Transport → List Char × List Char
  | .registry => ("docker".toList, ['/', '/'])
  | .ociArchive => ("oci-archive".toList, [])
  | .dockerArchive => ("docker-archive".toList, [])
  | .ociDir => ("oci".toList, [])
  | .containerStorage => ("containers-storage".toList, [])
  | .dir => ("dir".toList, [])

theorem Transport.display_toList (t : Transport) :
    t.display.toList = t.displayParts.1 ++ ':' :: t.displayParts.2 := by
  cases t <;> decide

theorem Transport.colon_not_mem (t : Transport) : ':' ∉ t.displayParts.1 := by
  cases t <;> decide

theorem Transport.tryFrom_displayParts (t : Transport) :
    Transport.tryFrom (String.ofList t.displayParts.1) = .ok t := by
  cases t <;> decide

theorem Transport.of_displayParts {s t : Transport} (h : s.displayParts.1 = t.displayParts.1) :
    s = t := by
  have hs := s.tryFrom_displayParts
  rw [h, t.tryFrom_displayParts] at hs
  exact (Except.ok.inj hs).symm

/-- A displayed reference is split behind the name of its transport. -/
theorem ImageReference.display_splitOnce (i : ImageReference) : splitOnce ':' i.display.toList
    = some (i.transport.displayParts.1, i.transport.displayParts.2 ++ i.name.toList) := by
  rw [ImageReference.display, String.toList_append, i.transport.display_toList, List.append_assoc]
  exact splitOnce_append i.transport.colon_not_mem _

/-- **A displayed image reference parses back to itself**, as long as its name is
    not empty. -/
theorem ImageReference.tryFrom_display (i : ImageReference) (hname : i.name ≠ "") :
    ImageReference.tryFrom i.display = .ok i := by
  obtain ⟨t, name⟩ := i
  have hne : name.toList ≠ [] := fun h => hname (String.toList_inj.mp (by rw [h]; rfl))
  have hsplit := ImageReference.display_splitOnce ⟨t, name⟩
  have hnonempty : (t.displayParts.2 ++ name.toList).isEmpty = false := by
    simp [hne]
  unfold ImageReference.tryFrom
  rw [hsplit]
  simp only [t.tryFrom_displayParts, Except.bind, hnonempty, Bool.false_eq_true, if_false]
  -- only the registry transport is spelled `docker` and carries the two slashes
  cases t with
  | registry =>
      have hstrip : stripPrefix ['/', '/'] (Transport.registry.displayParts.2 ++ name.toList)
          = some name.toList := stripPrefix_append ['/', '/'] name.toList
      rw [if_pos (by decide), hstrip]
      simp only [String.ofList_toList]
  | ociDir | ociArchive | dockerArchive | containerStorage | dir =>
      rw [if_neg (by decide)]
      show (Except.ok ⟨_, String.ofList name.toList⟩ : Result ImageReference) = _
      rw [String.ofList_toList]

/-- Different references are displayed differently. -/
theorem ImageReference.display_inj {i j : ImageReference} (h : i.display = j.display) : i = j := by
  have hsplit := i.display_splitOnce
  rw [h, j.display_splitOnce] at hsplit
  injection hsplit with hsplit
  obtain ⟨hhead, hrest⟩ := Prod.mk.inj hsplit
  obtain ⟨s, m⟩ := i
  obtain ⟨t, n⟩ := j
  obtain rfl : s = t := Transport.of_displayParts hhead.symm
  obtain rfl : m = n := (String.toList_inj.mp (List.append_cancel_left hrest)).symm
  rfl

/-- What a displayed reference is parsed to, with an empty name too, is itself. -/
theorem ImageReference.tryFrom_display_eq {i j : ImageReference}
    (h : ImageReference.tryFrom i.display = .ok j) : j = i := by
  by_cases hname : i.name = ""
  · obtain ⟨t, name⟩ := i
    obtain rfl : name = "" := hname
    -- only with its slashes is the registry parsed without a name
    have hparse : (ImageReference.tryFrom (ImageReference.display ⟨t, ""⟩)).toOption
        = if t = .registry then some ⟨t, ""⟩ else none := by
      cases t <;> decide
    rw [h] at hparse
    cases t with
    | registry => exact Option.some.inj hparse
    | ociDir | ociArchive | dockerArchive | containerStorage | dir => cases hparse
  · exact Except.ok.inj (h.symm.trans (ImageReference.tryFrom_display i hname))

end OstreeExt
