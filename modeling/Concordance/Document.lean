/-!
How documents and places in them are numbered. All three numbers are words of 32 bits.
-/
namespace Concordance

abbrev DocId := UInt32

/-- The place of a word in its document, counted from zero. -/
abbrev Position := UInt32

/-- The number of words in a document. -/
abbrev Length := UInt32

end Concordance
