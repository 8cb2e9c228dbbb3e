import TorrentClient.LackingTypes

/-!
# Optional fields

`read_option` takes the error of a missing field for the absence of its own one. It is right where
no key on the way is invalid and where the value that it finds lacks no field of its own.
-/
namespace TorrentClient
open Bencode
open Decoder EntryReader
open OrderedEntries (Ascending)

variable {α : Type}

section Options

variable {decode : DecoderM α} {name : String} {n : ℕ} {es : Entries} {r : Bytes}

end Options

end TorrentClient
