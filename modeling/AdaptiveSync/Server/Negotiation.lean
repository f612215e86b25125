import AdaptiveSync.Digest
import AdaptiveSync.Server.Effects

/-!
# An upload and the negotiation after it

What the negotiator answers about a file that is there depends on one comparison, that of
the client's hash with the hash of the file (`negotiate_of_file`). An upload saves the bytes
it received (`run_upload`), requests that only ask leave them alone (`fs_run_of_queries`,
`history_of_queries`), and the server's SHA-256 is the one of the standard
(`sha256Hex_eq_fips`), which the client's library computes. So a client that asks about a
file it has uploaded is told that it is unchanged, and one that has other content that it is
modified (`negotiate_after_upload`).
-/

namespace AdaptiveSync

open Fs
open LexPath (cStr)

/-- What the client's `sha256_file` gives for a file of this content: the `sha2` crate
computes the SHA-256 of the standard, and `hex::encode` prints it. -/
def clientSha256 (c : Bytes) : String := (Fips180.sha256 (Fips180.ofBytes c)).hex

theorem clientSha256_eq (c : Bytes) : clientSha256 c = toHex (sha256Raw c) := by
  rw [clientSha256, ← sha256Hex_eq_fips, toHex_sha256Raw]

theorem clientSha256_ne (c : Bytes) : clientSha256 c ≠ "" := by
  rw [clientSha256, ← sha256Hex_eq_fips]
  exact sha256Hex_ne c

/-- What the negotiator answers about a file that is there. -/
theorem negotiate_of_file {sha256 : Bytes → String} {fm : FileManager} {fs : FileSystem}
    {p : String} {t : LexPath.Text} {c : Bytes} (n : Negotiator) (hash : String)
    (hready : fm.Ready fs p t) (hnode : fs.node (fs.locate (cStr t)) = some (.file c)) :
    n.negotiate sha256 fm fs p hash =
      .ok (if hash ≠ "" ∧ hash = sha256 c then
        ⟨.unchanged, .unspecified, UInt64.ofNat c.length, sha256 c, n.blockSize⟩
      else ⟨.modified, .deltaSync, UInt64.ofNat c.length, sha256 c, n.blockSize⟩) := by
  have hlegible := hready.legible hnode
  have hexists := hlegible.fileExists
  obtain ⟨time, hinfo⟩ : ∃ time, fm.getFileInfo sha256 fs p =
      .ok (some ⟨p, UInt64.ofNat c.length, time, sha256 c⟩) := by
    simp only [FileManager.getFileInfo, hexists, hlegible.getFileSize,
      hlegible.computeSha256 sha256, FileManager.getLastModifiedNs, hready.resolves,
      existsOrThrow, hready.stat_of_file hnode, Except.ok_bind]
    exact ⟨_, rfl⟩
  simp only [Negotiator.negotiate, hexists, hinfo, Except.ok_bind, Bool.not_true,
    Bool.false_eq_true, if_false]
  split <;> rfl

/-- **Negotiation after an upload.** Once `c` has been uploaded to a path, in whatever pieces,
and after any requests that only ask, in this session and in later ones, a negotiation with
the hash of `c` is answered `UNCHANGED` with the size of `c`, and one with the hash of other
content, which does not collide with that of `c`, is answered `MODIFIED` and `DELTA_SYNC`. -/
theorem negotiate_after_upload {env : Env} {srv : Server} {t : LexPath.Text} {m : FileMetadata}
    {pieces : List Bytes} {c : Bytes} {queries : List WireFrame} {visits : List Visit}
    (hsha256 : env.sha256 = fun data => toHex (sha256Raw data)) (hidle : Idle srv)
    (hwritable : env.fm.Writable srv.fs m.relativePath t) (hpieces : pieces.flatten = c)
    (hsize : m.fileSize = UInt64.ofNat c.length) (hlen : c.length < maxOffset)
    (hqueries : ∀ frame ∈ queries, Query env frame)
    (hvisits : ∀ v ∈ visits, ∀ frame ∈ v.frames, Query env frame) (n : Negotiator) :
    let fs := history env (Server.run env srv (uploadFrames env m pieces ++ queries)).1.fs visits
    (∃ r, n.negotiate env.sha256 env.fm fs m.relativePath (clientSha256 c) = .ok r ∧
        r.fileMode = .unchanged ∧ r.serverFileSize.toNat = c.length) ∧
      ∀ other, other ≠ c → (clientSha256 other = clientSha256 c → other = c) →
        ∃ r, n.negotiate env.sha256 env.fm fs m.relativePath (clientSha256 other) = .ok r ∧
          r.fileMode = .modified ∧ r.transferMode = .deltaSync := by
  subst hpieces
  obtain ⟨hafter, hsaved⟩ := run_upload hidle hwritable hsize hlen
  -- the requests behind the upload leave the store as it is
  have hstore : history env (Server.run env srv (uploadFrames env m pieces ++ queries)).1.fs
      visits = (Server.run env srv (uploadFrames env m pieces)).1.fs := by
    rw [history_of_queries hvisits, Server.run_append]
    exact (fs_run_of_queries hafter.waiting hqueries).1
  have hserver : env.sha256 pieces.flatten = clientSha256 pieces.flatten := by
    rw [hsha256, clientSha256_eq]
  intro fs
  have hanswer := fun hash => @negotiate_of_file env.sha256 _ _ _ _ _ n hash hsaved.toReady
    hsaved.node
  rw [← hstore, hserver] at hanswer
  constructor
  · refine ⟨_, hanswer _, ?_⟩
    rw [if_pos ⟨clientSha256_ne _, rfl⟩]
    exact ⟨rfl, toNat_ofNat_of_lt hlen⟩
  · intro other hother hcollision
    refine ⟨_, hanswer _, ?_⟩
    rw [if_neg fun hc => hother (hcollision hc.2)]
    exact ⟨rfl, rfl⟩

/-- A client that lists the files. -/
def listing : WireFrame := message protobuf.listFilesRequest .listFilesRequest ⟨"", true⟩

theorem query_listing : Query storageEnv listing := by
  have hin : incoming storageEnv.proto listing = .listFilesRequest ⟨"", true⟩ :=
    incoming_listFilesRequest protobuf _
  rw [Query, hin]
  trivial

/-- Two bytes are uploaded in two pieces, and the files are listed in this session and in
another one. -/
theorem negotiate_after_upload_two_bytes :
    let m : FileMetadata := ⟨"f", 2, 0, "", .fresh⟩
    let fs := history storageEnv (Server.run storageEnv
      (Server.new 4096 (FileSystem.single ['s'] "f.tmp".toList (some [7])))
      (uploadFrames storageEnv m [[1], [2]] ++ [listing])).1.fs [⟨4096, [listing]⟩]
    (∃ r, (Negotiator.mk 4096).negotiate storageEnv.sha256 storageEnv.fm fs "f"
        (clientSha256 [1, 2]) = .ok r ∧ r.fileMode = .unchanged ∧ r.serverFileSize.toNat = 2) ∧
      ∃ r, (Negotiator.mk 4096).negotiate storageEnv.sha256 storageEnv.fm fs "f"
        (clientSha256 [3]) = .ok r ∧ r.fileMode = .modified ∧ r.transferMode = .deltaSync := by
  have hsha256 : storageEnv.sha256 = fun data => toHex (sha256Raw data) :=
    funext fun data => (toHex_sha256Raw data).symm
  have hquery : ∀ frame ∈ [listing], Query storageEnv frame := by
    intro frame hframe
    rw [List.mem_singleton.mp hframe]
    exact query_listing
  have hvisits : ∀ v ∈ [(⟨4096, [listing]⟩ : Visit)], ∀ frame ∈ v.frames,
      Query storageEnv frame := by
    intro v hv
    rw [List.mem_singleton.mp hv]
    exact hquery
  have hne : clientSha256 [3] ≠ clientSha256 [1, 2] := by
    rw [clientSha256, clientSha256, ← sha256Hex_eq_fips, ← sha256Hex_eq_fips]
    decide +kernel
  have hpieces : ([[1], [2]] : List Bytes).flatten = [1, 2] := rfl
  obtain ⟨hsame, hother⟩ := @negotiate_after_upload storageEnv
    (Server.new 4096 (FileSystem.single ['s'] "f.tmp".toList (some [7]))) "s/f".toList
    ⟨"f", 2, 0, "", .fresh⟩ _ _ _ _ hsha256 ⟨rfl, rfl⟩ (ready_beside_tmp [7]).writable hpieces rfl
    (by decide) hquery hvisits ⟨4096⟩
  exact ⟨hsame, hother [3] (by decide) fun hc => absurd hc hne⟩

end AdaptiveSync
