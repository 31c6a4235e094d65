import Manapds.Repo.Publish

/-!
# Signed commits

A commit is checked against a public key, over the bytes of everything in it but the signature.
Whatever a repository is moved by, the commit it ends on was signed by the keypair the move was
made with, so it verifies under the key whose signatures that keypair makes.
-/

namespace Manapds

open QueryProgram Routine

variable {Cid : Type}

/-- What a signature is checked with, and why one is refused. -/
structure PublicKey where
  verify : Bytes → Bytes → Except String Unit

/-- A key is the half of a keypair that can be published. -/
def PublicKey.Of (key : PublicKey) (keypair : Keypair) : Prop :=
  ∀ message, key.verify message (keypair.sign message) = .ok ()

variable [Codec Cid]

/-- Checks the signature against a key. -/
def Commit.verify (commit : Commit Cid) (key : PublicKey) : Except (RepoError Cid) Unit :=
  if commit.version ≠ currentVersion then .error (.wrongVersion commit.version)
  else do
    let bytes ← encode commit.unsigned
    (key.verify bytes commit.sig).mapError .signature

variable {did : Did} {rev : Tid} {data : Cid} {keypair : Keypair} {commit : Commit Cid}

/-- What is signed is what is verified: the signature is no part of it. -/
theorem Commit.verify_of_sign (h : Commit.sign did rev data keypair = .ok commit) {key : PublicKey}
    (hk : key.Of keypair) : commit.verify key = .ok () := by
  unfold Commit.sign at h
  obtain ⟨bytes, hbytes, h⟩ := bind_ok_iff.mp h
  cases h
  have hsame : (⟨did, currentVersion, data, rev, none, keypair.sign bytes⟩ : Commit Cid).unsigned =
      (⟨did, currentVersion, data, rev, none, []⟩ : Commit Cid).unsigned := rfl
  rw [Commit.verify, if_neg (by simp), hsame, hbytes]
  change (key.verify bytes (keypair.sign bytes)).mapError RepoError.signature = .ok ()
  rw [hk]
  rfl

variable [DecidableEq Cid]

/-- The first commit of a repository. -/
theorem signed_of_create {now : ℕ} {clock clock' : TidClock} {repo : Repo Cid}
    {blocks : BlockMap Cid} (h : Repo.create did keypair now clock = (.ok (repo, blocks), clock')) :
    ∃ data, Commit.sign did repo.rev data keypair = .ok repo.commit := by
  obtain ⟨⟨⟨root, tree⟩, held⟩, s1, -, h⟩ := exec_bind_eq_ok _ _ h
  obtain ⟨clock1, s2, -, h⟩ := exec_bind_eq_ok _ _ h
  obtain ⟨u, s3, -, h⟩ := exec_bind_eq_ok _ _ h
  obtain ⟨commit, s4, h4, he⟩ := exec_bind_eq_ok _ _ h
  obtain ⟨hsign, -⟩ := exec_ofExcept_eq_ok _ _ h4
  obtain ⟨⟨cid, blocks1⟩, s5, -, he⟩ := exec_bind_eq_ok _ _ he
  obtain ⟨-, hrev, -⟩ := sign_ok hsign
  cases he
  rw [← hrev] at hsign
  exact ⟨root, hsign⟩

/-- The commit a batch of writes comes to. -/
theorem signed_of_apply {st : Cid → Option Bytes} {rounds : ℕ} {repo repo' : Repo Cid}
    {writes : List (Write Cid)} {now : ℕ} {clock clock' : TidClock} {blocks : BlockMap Cid}
    {dropped : List Cid} (h : exec (Store.answer st) (repo.apply rounds writes keypair now) clock =
      (.ok (blocks, dropped, repo'), clock')) :
    ∃ data, Commit.sign repo.commit.did repo'.rev data keypair = .ok repo'.commit := by
  unfold Repo.apply at h
  split_ifs at h
  · cases h
  obtain ⟨batch, s1, -, h⟩ := exec_bind_eq_ok _ _ h
  obtain ⟨blocks1, s2, -, h⟩ := exec_bind_eq_ok _ _ h
  obtain ⟨⟨⟨root, tree⟩, held⟩, s3, -, h⟩ := exec_bind_eq_ok _ _ h
  obtain ⟨gone, s4, -, h⟩ := exec_bind_eq_ok _ _ h
  obtain ⟨clock1, s5, -, h⟩ := exec_bind_eq_ok _ _ h
  obtain ⟨minted, clock2, hminted⟩ : ∃ minted clock2, clock1.mintAfter now repo.rev =
    (minted, clock2) := ⟨_, _, rfl⟩
  simp only [hminted] at h
  obtain ⟨u, s6, -, h⟩ := exec_bind_eq_ok _ _ h
  cases minted with
  | none => cases h
  | some rev =>
    obtain ⟨commit, s7, h7, he⟩ := exec_bind_eq_ok _ _ h
    obtain ⟨hsign, -⟩ := exec_ofExcept_eq_ok _ _ h7
    obtain ⟨⟨cid, blocks2⟩, s8, -, he⟩ := exec_bind_eq_ok _ _ he
    obtain ⟨-, hrev, -⟩ := sign_ok hsign
    cases he
    rw [← hrev] at hsign
    exact ⟨root, hsign⟩

end Manapds
