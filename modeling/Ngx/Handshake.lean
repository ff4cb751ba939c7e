import Ngx.UpgradeHeaders

/-! The handshake, from the bytes of the request to those of the answer. -/
namespace Ngx.Http

open Resumable

section Handshake

variable {memory : Nat → HeaderMemory} {h : Header} {word : List UInt8}

/-- A name that is taken for a word begins with it, or is the beginning of it. -/
theorem startsWith_comparable (looks : startsWith (keyMemory memory h) 0 word = true) :
    word <+: h.1.1.map tolower ∨ h.1.1.map tolower <+: word := by
  have front (n m : Nat) : cells (keyMemory memory h) 0 n <+: cells (keyMemory memory h) 0 (n + m) :=
    ⟨_, cells_append _ (Nat.zero_le n) (Nat.le_add_right n m)⟩
  have first := front word.length (h.1.1.map tolower).length
  have second := front (h.1.1.map tolower).length word.length
  have name := (@keyMemory_holds memory h).cells_eq
  rw [startsWith, Nat.zero_add, decide_eq_true_iff] at looks
  rw [Nat.zero_add] at name
  rw [looks] at first
  rw [name, Nat.add_comm] at second
  exact List.prefix_or_prefix_of_prefix first second

end Handshake

/-- The handshake is answered with the accept key of the key that was sent. -/
theorem handshake_answer (memory : Nat → HeaderMemory) (sha1 : Sha1Ctx) (block : Nat → UInt8)
    (start : Nat) (r : RequestLine) (state : RequestLineState) (b : HeaderIn) (reads : List HeaderRead)
    (hs others : List HeaderText) (upgrade key : HeaderText)
    (accepted : (parseRequestLine r state b).code = .ok)
    (provided : ∀ k, (memory k).part = true ∧ (memory k).lowcaseKey ≠ none)
    (arrives : ∀ read ∈ reads, read.Arrives)
    (received : cells (parseRequestLine r state b).b.mem (parseRequestLine r state b).b.pos
      (parseRequestLine r state b).b.last ++ reads.flatMap HeaderRead.bytes = headerSection hs)
    (fits : (parseRequestLine r state b).b.pos + (headerSection hs).length ≤
      start + clientHeaderBufferSize)
    (carries : hs.Perm (upgrade :: key :: others))
    (is_upgrade : isUpgrade upgrade.pair) (is_key : isKey key.pair)
    (apart : ∀ h ∈ others, ∀ word ∈ [upgradeName, keyName],
      ¬ word <+: h.name.map tolower ∧ ¬ h.name.map tolower <+: word) :
    ∃ n t t', processRequestHeaders memory n true (.enter start (parseRequestLine r state b)) reads =
        some (.processed t) ∧
      t.websocketHandler sha1 (some block) = some (.answered t') ∧
      cells t'.b.mem t'.b.pos t'.b.last =
        switchingProtocols (Base64.encode (Sha1.hash (key.value ++ websocketUuid))) := by
  obtain ⟨n, t, lines, q, part, ended, finished, found, -⟩ :=
    section_processed (accepted_inside accepted) provided arrives received fits
  have listed {h : HeaderText} (member : h ∈ upgrade :: key :: others) :
      ∃ i, (h.pair, i) ∈ headersOf lines := by
    have inside := List.mem_map_of_mem (carries.mem_iff.mpr member) (f := HeaderText.pair)
    rw [← found] at inside
    obtain ⟨i, at_i⟩ := List.getElem?_of_mem inside
    exact ⟨i, List.mk_mem_zipIdx_iff_getElem?.mpr at_i⟩
  have taken : t.upgrade = true := by
    obtain ⟨i, member⟩ := listed List.mem_cons_self
    rw [finished.upgrade, List.any_eq_true]
    exact ⟨_, member, looksUpgrade_of is_upgrade⟩
  have only : ∀ h ∈ headersOf lines, looksKey memory h → h.1 = key.pair := by
    intro h member looks
    have inside := List.fst_mem_of_mem_zipIdx member
    rw [found] at inside
    obtain ⟨text, among, same⟩ := List.mem_map.mp inside
    have comparable := startsWith_comparable looks
    rw [← same] at comparable ⊢
    rcases List.mem_cons.mp (carries.mem_iff.mp among) with rfl | later
    · rw [(isUpgrade_iff.mp is_upgrade).1] at comparable
      exact absurd comparable (by decide +kernel)
    · rcases List.mem_cons.mp later with rfl | other
      · rfl
      · obtain ⟨longer, shorter⟩ := apart text other keyName (by simp)
        exact (comparable.elim longer shorter).elim
  have some_key : ((headersOf lines).filter (looksKey memory)).getLast? ≠ none := by
    obtain ⟨i, member⟩ := listed (List.mem_cons_of_mem _ List.mem_cons_self)
    rw [Ne, List.getLast?_eq_none_iff]
    exact List.ne_nil_of_mem (List.mem_filter.mpr ⟨member, looksKey_of is_key⟩)
  obtain ⟨h, last⟩ := Option.ne_none_iff_exists'.mp some_key
  have member := List.mem_filter.mp (List.mem_of_getLast? last)
  have is := only h member.1 member.2
  have no_nul : ∀ b ∈ h.1.2, b ≠ 0 := by
    rw [is]
    exact fun b inside => (key.trimmed.bytes b inside).2.2
  obtain ⟨t', answered, answer⟩ : ∃ t', t.websocketHandler sha1 (some block) =
      some (.answered t') ∧ cells t'.b.mem t'.b.pos t'.b.last = _ :=
    finished.answers taken last no_nul
  rw [is] at answer
  exact ⟨n, t, t', ended, answered, answer⟩

/-- A handshake whose key comes before the upgrade header, in two reads. -/
theorem handshake_answer_sample :
    let memory : Nat → HeaderMemory := fun _ => ⟨true, some fun _ => 0⟩
    let call := parseRequestLine .fresh .start (HeaderIn.received ⟨fun _ => 0, 0, 0⟩
      (ascii "GET / HTTP/1.1\r\nSec-WebSocket-Key: dGhlIHNhbXBs"))
    let reads : List HeaderRead := [⟨⟨true, .data (ascii "ZSBub25jZQ==\r\n"), true⟩, false⟩,
      ⟨⟨true, .data (ascii "UPGRADE:websocket\r\nHost: a\r\n\r\n"), true⟩, false⟩]
    ∃ n t t', processRequestHeaders memory n true (.enter 0 call) reads = some (.processed t) ∧
      t.websocketHandler ⟨⟨0, 0, 0, 0, 0⟩, 0, fun _ => 0⟩ (some fun _ => 0) = some (.answered t') ∧
      cells t'.b.mem t'.b.pos t'.b.last =
        switchingProtocols (ascii "s3pPLMBiTxaQ9kYGzzhZRbK+xOo=") := by
  intro memory call reads
  let upgrade : HeaderText := ⟨ascii "UPGRADE", 0, ascii "websocket", 0, true, by decide +kernel, by decide +kernel,
    ⟨by decide +kernel, by decide +kernel, by decide +kernel⟩⟩
  let key : HeaderText := ⟨ascii "Sec-WebSocket-Key", 1, ascii "dGhlIHNhbXBsZSBub25jZQ==", 0, true,
    by decide +kernel, by decide +kernel, ⟨by decide +kernel, by decide +kernel, by decide +kernel⟩⟩
  let host : HeaderText := ⟨ascii "Host", 1, ascii "a", 0, true, by decide +kernel, by decide +kernel,
    ⟨by decide +kernel, by decide +kernel, by decide +kernel⟩⟩
  have accept : Base64.encode (Sha1.hash (ascii "dGhlIHNhbXBsZSBub25jZQ==" ++ websocketUuid)) =
      ascii "s3pPLMBiTxaQ9kYGzzhZRbK+xOo=" := by decide +kernel
  rw [← accept]
  refine handshake_answer memory _ _ 0 _ _ _ reads [key, upgrade, host] [host] upgrade key ?_
    (fun _ => ⟨rfl, nofun⟩) ?_ ?_ ?_ (.swap _ _ _) (by decide +kernel) (by decide +kernel) ?_
  · decide +kernel
  · simp only [reads, List.forall_mem_cons]
    exact ⟨(by decide +kernel : ascii "ZSBub25jZQ==\r\n" ≠ []),
      (by decide +kernel : ascii "UPGRADE:websocket\r\nHost: a\r\n\r\n" ≠ []), nofun⟩
  · decide +kernel
  · decide +kernel
  · simp only [List.mem_singleton, forall_eq]
    decide +kernel

end Ngx.Http
