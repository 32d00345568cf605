import Cruller.Text.Utf16Equal

/-!
# Streams through both coders

Text that goes through a `TextEncoderStream` and then through a `TextDecoderStream` for UTF-8.
-/

namespace Cruller.Text

open List Utf16 TextDecoder

/-- Well-formed text comes back, however it is cut before it is encoded and before it is decoded,
and a fatal decoder throws in no call. -/
theorem decodeStream_encodeStream (A : Allocator) {S : SimdutfUTF16} (hS : S.Lawful) {D : Simdutf}
    (hD : D.Lawful) (fatal : Bool) (streams : List (List ArrayBuffer × Option ArrayBuffer))
    {strs : List ZigString} (h : ValidUnits (strs.flatMap ZigString.units))
    {chunks : List ArrayBuffer} {last : Option ArrayBuffer} (hbytes : bytesOf chunks last =
      (TextEncoderStreamEncoder.encodeStream A S {} strs).flatten) :
    TextDecoder.joined
        (((ofOptions .utf8 fatal true).afterStreams D streams).decodeStream D chunks last).2 =
      some (strs.flatMap ZigString.units) := by
  obtain ⟨cs, hcs, hunits, hpoints⟩ := exists_scalars h
  have hdecoded : EncodingLabel.utf8.decoded (bytesOf chunks last) = cs.map some := by
    rw [hbytes, TextEncoderStreamEncoder.encodeStream_from hS (fun _ h => absurd h (by simp)),
      hpoints, bytes_map_some]
    exact Utf8.text_flatMap_encode hcs
  have htaken : (ofOptions .utf8 fatal true).takenOf chunks last = bytesOf chunks last := by
    simp [takenOf, bytesOf, withoutBOM, ofOptions]
  refine (joined_decodeStream hD .utf8 fatal true streams chunks last).trans ?_
  simp only [htaken, EncodingLabel.Valid, EncodingLabel.text, hdecoded, hunits]
  simp [Utf16.units, flatMap_map]

/-- A surrogate pair in two strings, and its UTF-8 in two chunks. -/
theorem decodeStream_encodeStream_pair :
    TextDecoder.joined (((ofOptions .utf8 true true).afterStreams reference []).decodeStream
      reference [⟨[0xF0, 0x9F], by decide⟩] (some ⟨[0x98, 0x80], by decide⟩)).2 =
      some [0xD83D, 0xDE00] := by
  have h : ValidUnits ([.utf16 [0xD83D] (by decide), .utf16 [0xDE00] (by decide)].flatMap
      ZigString.units) := by decide
  exact decodeStream_encodeStream ⟨fun _ needed => needed, fun _ _ => le_rfl⟩ lawful_referenceUTF16
    lawful_reference true [] h (by decide +kernel)

end Cruller.Text
