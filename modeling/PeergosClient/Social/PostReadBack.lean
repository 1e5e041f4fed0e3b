import PeergosClient.Messaging.ReadBack
import PeergosClient.Social.Post

/-!
# Which posts read back

A post reads back from what it writes, however deep its previous versions are nested, exactly when
the references to files in it do.
-/

namespace Peergos

/-! ## The references of a post -/

/-- The references in a part of a body. -/
def Content.refs : Content → List FileRef
  | .text _ => []
  | .reference r => [r]

theorem Content.encodable_iff_refs (c : Content) :
    c.Encodable ↔ ∀ r ∈ c.refs, r.cap.Encodable := by
  cases c <;> simp [Encodable, refs]

namespace SocialPost

mutual

/-- The references to files in a post and its previous versions. -/
def refs : SocialPost → List FileRef
  | ⟨_, body, _, _, parent, previousVersions, comments⟩ =>
      body.flatMap Content.refs ++ parent.toList ++ refsAll previousVersions ++ comments

def refsAll : List SocialPost → List FileRef
  | [] => []
  | p :: ps => refs p ++ refsAll ps

end

/-- The keys of every capability in a post fit. -/
def InRange (p : SocialPost) : Prop := ∀ r ∈ p.refs, r.cap.KeysFit

/-- The keys named in a post. -/
def keyHashes (p : SocialPost) : List PublicKeyHash := p.refs.flatMap FileRef.keyHashes

/-! ## Reading a post back -/

section

variable (p : SocialPost) (versions : List CborObject)

theorem fields_nodup : ((p.fields versions).map Prod.fst).Nodup :=
  (p.fields_keys versions).nodup (by decide)

/-- A field that is always put reads as what was put. -/
theorem get_plainField {e : String × CborObject} (he : e ∈ p.plainFields) :
    (CborObject.build (p.fields versions)).get e.1 = some e.2 := by
  apply CborObject.get_build_of_mem (p.fields_nodup versions)
  simp only [fields, List.mem_append]
  exact .inl (.inl (.inl he))

theorem get_parent :
    (CborObject.build (p.fields versions)).get "p" = p.parent.map FileRef.toCbor := by
  cases hparent : p.parent with
  | none =>
      apply CborObject.get_build_of_not_mem
      simp [fields, plainFields, listField, hparent]
  | some r =>
      apply CborObject.get_build_of_mem (p.fields_nodup versions)
      simp [fields, hparent]

theorem get_versions :
    (((CborObject.build (p.fields versions)).get "v").bind CborObject.asList).getD [] =
      versions := by
  cases versions with
  | nil =>
      rw [CborObject.get_build_of_not_mem]
      · rfl
      · cases p.parent <;> simp [fields, plainFields, listField]
  | cons c versions =>
      rw [CborObject.get_build_of_mem (p.fields_nodup _) (v := .list (c :: versions))]
      · rfl
      · simp [fields, listField]

theorem get_comments :
    (((CborObject.build (p.fields versions)).get "d").bind CborObject.asList).getD [] =
      p.comments.map FileRef.toCbor := by
  cases hcomments : p.comments with
  | nil =>
      rw [CborObject.get_build_of_not_mem]
      · rfl
      · cases p.parent <;> simp [fields, plainFields, listField, hcomments]
  | cons r comments =>
      rw [CborObject.get_build_of_mem (p.fields_nodup _)
        (v := .list ((r :: comments).map FileRef.toCbor))]
      · rfl
      · simp [fields, listField, hcomments]

/-- The body of a post reads as the post exactly when the references in it do. -/
theorem ofBody_fields_iff (prior : Result (List SocialPost)) :
    ofBody (.build (p.fields versions)) prior = .ok p ↔
      (∀ c ∈ p.body, c.Encodable) ∧ (∀ r ∈ p.parent, r.cap.Encodable) ∧
        prior = .ok p.previousVersions ∧ ∀ r ∈ p.comments, r.cap.Encodable := by
  have hplain := fun e he => p.get_plainField versions (e := e) he
  simp only [plainFields, List.forall_mem_cons] at hplain
  obtain ⟨ha, hb, ht, hs, -⟩ := hplain
  have hbody : (p.body.map Content.toCbor).mapM Content.fromCbor = .ok p.body ↔
      ∀ c ∈ p.body, c.Encodable := by
    rw [mapM_map_iff]
    exact forall₂_congr fun c _ => Content.fromCbor_toCbor_iff
  have hcomments : (p.comments.map FileRef.toCbor).mapM FileRef.fromCbor = .ok p.comments ↔
      ∀ r ∈ p.comments, r.cap.Encodable := by
    rw [mapM_map_iff]
    exact forall₂_congr fun r _ => FileRef.fromCbor_toCbor_iff
  have hparent : AbsoluteCapability.optional (.build (p.fields versions)) "p" FileRef.fromCbor =
      .ok p.parent ↔ ∀ r ∈ p.parent, r.cap.Encodable := by
    rw [AbsoluteCapability.optional_iff (p.get_parent versions)]
    exact forall₂_congr fun r _ => FileRef.fromCbor_toCbor_iff
  rw [← hbody, ← hcomments, ← hparent]
  simp only [ofBody, ha, hb, ht, hs, p.get_comments versions, Option.bind_some,
    CborObject.asString, CborObject.asList, CborObject.asLong, Option.getD_some,
    Resharing.fromName_name, ok_bind]
  constructor
  · intro h
    obtain ⟨body, hbody, h⟩ := bind_eq_ok.1 h
    obtain ⟨parent, hparent, h⟩ := bind_eq_ok.1 h
    obtain ⟨prev, hprev, h⟩ := bind_eq_ok.1 h
    obtain ⟨comments, hcomments, h⟩ := bind_eq_ok.1 h
    have heq := Except.ok.inj h
    obtain rfl : body = p.body := congrArg SocialPost.body heq
    obtain rfl : parent = p.parent := congrArg SocialPost.parent heq
    obtain rfl : prev = p.previousVersions := congrArg SocialPost.previousVersions heq
    obtain rfl : comments = p.comments := congrArg SocialPost.comments heq
    exact ⟨hbody, hparent, hprev, hcomments⟩
  · rintro ⟨hbody, hparent, hprev, hcomments⟩
    simp only [hbody, hparent, hprev, hcomments, ok_bind]
    cases p
    rfl

/-- Reading a post, from reading its previous versions. -/
theorem fromCbor_toCbor_eq :
    fromCbor p.toCbor = ofBody (.build (p.fields (toCborAll p.previousVersions)))
      (fromCborAll (toCborAll p.previousVersions)) := by
  rw [toCbor_eq, fromCbor]
  simp only [CborObject.asList, List.head?_cons, Option.bind_some, CborObject.asLong, ne_eq,
    not_true_eq_false, if_false, List.getElem?_cons_succ, List.getElem?_cons_zero, get_versions]

end

/-- **A post reads back exactly when the references in it do**, those of its previous versions
included: the induction is on the post and on the lists of versions in it. -/
theorem fromCbor_toCbor_iff : ∀ p : SocialPost,
    fromCbor p.toCbor = .ok p ↔ ∀ r ∈ p.refs, r.cap.Encodable := by
  refine @SocialPost.rec (fun p => fromCbor p.toCbor = .ok p ↔ ∀ r ∈ p.refs, r.cap.Encodable)
    (fun ps => fromCborAll (toCborAll ps) = .ok ps ↔ ∀ r ∈ refsAll ps, r.cap.Encodable)
    ?mk ?nil ?cons
  case mk =>
    intro author body postTime shareTo parent previousVersions comments ih
    rw [fromCbor_toCbor_eq, ofBody_fields_iff, ih, refs]
    simp only [List.forall_mem_append, List.forall_mem_flatMap, Option.mem_toList,
      Content.encodable_iff_refs, and_assoc]
    exact Iff.rfl
  case nil => simp [toCborAll, fromCborAll, refsAll, pure, Except.pure]
  case cons =>
    intro p ps ih ihs
    rw [refsAll, List.forall_mem_append, ← ih, ← ihs, toCborAll, fromCborAll]
    constructor
    · intro h
      obtain ⟨p', hp, h⟩ := bind_eq_ok.1 h
      obtain ⟨ps', hps, h⟩ := bind_eq_ok.1 h
      cases h
      exact ⟨hp, hps⟩
    · rintro ⟨hp, hps⟩
      simp only [hp, hps, ok_bind]
      rfl

/-- A post reads back exactly when the keys named in it do. -/
theorem readsBack_iff {p : SocialPost} (h : p.InRange) :
    fromCbor p.toCbor = .ok p ↔ ∀ k ∈ p.keyHashes, k.target.Written := by
  rw [fromCbor_toCbor_iff, keyHashes, List.forall_mem_flatMap]
  exact forall₂_congr fun r hr => r.encodable_iff (h r hr)

end SocialPost

end Peergos
