/-!
# Reserved names

Every indexed document carries metadata under one reserved name, among them the id of the space that
the document belongs to and the name of its file.
-/

namespace SearchComposer.Reserved

/-- The name that all metadata are under. -/
def root : String := "__onedata"

/-- The name of the id of the space of a document, under the reserved name. -/
def spaceId : String := "spaceId"

/-- The name of the file name of a document, under the reserved name. -/
def fileName : String := "fileName"

/-- The path of the id of the space of a document. -/
def spacePath : String := root ++ "." ++ spaceId

end SearchComposer.Reserved
