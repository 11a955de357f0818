import RuleRegistry.Artifact.Binary
import RuleRegistry.Artifact.Document

namespace RuleRegistry.ArtifactKind

def write (kind : ArtifactKind) (c : Collection) (names : ArtifactNames) :
    Except ArtifactError Bytes :=
  match kind with
  | binary => Artifact.writeBinary c names
  | yaml => .ok (Bytes.ofText (Artifact.writeDocument c names))

def read (kind : ArtifactKind) (bytes : Bytes) : Except ArtifactError Archive :=
  match kind with
  | binary => Artifact.readBinary bytes
  | yaml => Artifact.readDocument bytes

end RuleRegistry.ArtifactKind
