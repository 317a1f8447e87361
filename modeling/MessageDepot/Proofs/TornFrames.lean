import MessageDepot.Key
import MessageDepot.Proofs.CodecRoundTrip
import MessageDepot.Proofs.EnvelopeGrammar

/-!
# Torn and padded blobs

The frame of stored bytes tells their whole length (`Framed.length_eq`), and it is compared with the
bytes that are there before anything of the body is looked at. So it does not matter how an accepted
blob was written: cut off anywhere it ends too soon, and with anything behind it it goes on too
long.

Results:
* `decode_short`, `decode_cut`, `decode_extended`: bytes that end in the header, in the body, and
  behind it.
* `decode_torn_or_padded`: every strict prefix and every extension of an accepted blob, and so no
  accepted blob begins another one.
-/
namespace MessageDepot.Codec

variable (c : Codec)

theorem decode_short {b : Bytes} (h : b.length < 5) :
    c.decode b = .error (.truncated 5 b.length) := by
  unfold decode
  split
  · simp only [List.length_cons] at h
    omega
  · rfl

section Header

variable {w x y z : UInt8} {n : Nat} {body : Bytes}

theorem decode_cut (hn : ((w.toNat * 256 + x.toNat) * 256 + y.toNat) * 256 + z.toNat = n)
    (h : body.length < n) :
    c.decode (1 :: w :: x :: y :: z :: body) = .error (.truncated (5 + n) (5 + body.length)) := by
  rw [decode, if_neg (by decide), hn]
  exact if_pos h

theorem decode_extended (hn : ((w.toNat * 256 + x.toNat) * 256 + y.toNat) * 256 + z.toNat = n)
    (h : n < body.length) :
    c.decode (1 :: w :: x :: y :: z :: body) =
      .error (.trailingBytes (5 + n) (5 + body.length)) := by
  rw [decode, if_neg (by decide), hn]
  have hle : ¬ body.length < n := by omega
  simp only [if_neg hle, if_pos h, headerSize]

end Header

theorem Framed.length_eq {b body : Bytes} (h : Framed b body) : b.length = 5 + body.length := by
  obtain ⟨w, x, y, z, rfl, -⟩ := h
  simp only [List.length_cons]
  omega

/-- A prefix of five bytes or more keeps the header. -/
theorem decode_prefix {b body p : Bytes} (h : Framed b body) (hp : p <+: b) (hne : p ≠ b) :
    c.decode p = .error (.truncated (if p.length < 5 then 5 else b.length) p.length) := by
  by_cases hshort : p.length < 5
  · rw [if_pos hshort, decode_short c hshort]
  have hlt : p.length < b.length :=
    Nat.lt_of_le_of_ne hp.length_le fun e => hne (hp.eq_of_length e)
  have hlength := h.length_eq
  obtain ⟨w, x, y, z, rfl, hn⟩ := h
  obtain ⟨k, hk⟩ : ∃ k, p.length = k + 5 := ⟨p.length - 5, by omega⟩
  have hcut : p = 1 :: w :: x :: y :: z :: body.take k := by
    rw [List.prefix_iff_eq_take.1 hp, hk]
    rfl
  have hbody : (body.take k).length = k := by
    rw [List.length_take]
    omega
  rw [if_neg hshort, hlength, hk, Nat.add_comm k 5, hcut, decode_cut c hn (by omega), hbody]

theorem decode_append {b body s : Bytes} (h : Framed b body) (hs : s ≠ []) :
    c.decode (b ++ s) = .error (.trailingBytes b.length (b ++ s).length) := by
  have hpos := List.length_pos_iff.2 hs
  have hlength := h.length_eq
  obtain ⟨w, x, y, z, rfl, hn⟩ := h
  simp only [List.cons_append]
  rw [decode_extended c hn (by rw [List.length_append]; omega), hlength]
  simp only [List.length_cons, List.length_append]
  congr 2
  omega

/-- Take any bytes that are accepted, by a codec of any limit. Each strict prefix of them is
truncated: five bytes were expected where fewer are left, and otherwise all there were. With one or
more bytes behind them they have trailing bytes, and their own length was expected. So no accepted
bytes are the beginning of others that are accepted. -/
theorem decode_torn_or_padded {c : Codec} {b : Bytes} {m : Message} (h : c.decode b = .ok m)
    (reader : Codec) :
    (∀ p, p <+: b → p ≠ b →
      reader.decode p = .error (.truncated (if p.length < 5 then 5 else b.length) p.length)) ∧
    (∀ s, s ≠ [] →
      reader.decode (b ++ s) = .error (.trailingBytes b.length (b ++ s).length)) ∧
    ∀ b' m', reader.decode b' = .ok m' → b <+: b' → b' = b := by
  obtain ⟨body, hframed⟩ := exists_framed h
  refine ⟨fun p hp hne => decode_prefix reader hframed hp hne,
    fun s hs => decode_append reader hframed hs, ?_⟩
  rintro _ m' h' ⟨s, rfl⟩
  by_cases hs : s = []
  · rw [hs, List.append_nil]
  · rw [decode_append reader hframed hs] at h'
    cases h'

/-- A stored message of 55 bytes, cut off in its header and in its body, and with a byte too
many. -/
theorem decode_torn_or_padded_stored :
    let m : Message := ⟨plainSpace, 7, Headers.ofList [("a", "1")], []⟩
    standard.decode (frame m) = .ok m ∧
      standard.decode ((frame m).take 4) = .error (.truncated 5 4) ∧
      standard.decode ((frame m).take 54) = .error (.truncated 55 54) ∧
      standard.decode (frame m ++ [0]) = .error (.trailingBytes 55 56) := by
  have hsize : (envelope ⟨plainSpace, 7, Headers.ofList [("a", "1")], []⟩).size = 50 := by decide
  intro m
  change (envelope m).size = 50 at hsize
  have hm : standard.decode (frame m) = .ok m := standard.decode_frame (by omega)
  have hlength : (frame m).length = 55 := by
    simp only [frame, lengthBytes, List.cons_append, List.nil_append, List.length_cons,
      Wire.Envelope.length_write, hsize]
  obtain ⟨htorn, hpadded, -⟩ := decode_torn_or_padded hm standard
  have hcut (k : Nat) (hk : k < 55) :
      standard.decode ((frame m).take k) = .error (.truncated (if k < 5 then 5 else 55) k) := by
    have hk' : ((frame m).take k).length = k := by
      rw [List.length_take]
      omega
    have hne : (frame m).take k ≠ frame m := fun e => by
      rw [e] at hk'
      omega
    simpa only [hk', hlength] using htorn _ (List.take_prefix k _) hne
  refine ⟨hm, hcut 4 (by decide), hcut 54 (by decide), ?_⟩
  have h := hpadded [0] (by simp)
  rwa [List.length_append, hlength] at h

end MessageDepot.Codec
