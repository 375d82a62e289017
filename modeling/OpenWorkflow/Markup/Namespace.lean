/-!
# Namespaces

The namespaces a workflow document draws on, and qualified names. A name in a
namespace is written with the namespace in braces in front of it.
-/

namespace OpenWorkflow.Markup

/-- The qualified form of a local name. -/
def qualify (ns : String) (name : String) : String := "\x7b" ++ ns ++ "\x7d" ++ name

namespace Namespace

/-- Control flow and primitive activities. -/
def activities : String := "http://schemas.microsoft.com/netfx/2009/xaml/activities"

/-- Messaging activities. -/
def serviceModel : String := "http://schemas.microsoft.com/netfx/2009/xaml/servicemodel"

/-- The markup language's own names: keys, references, null values. -/
def language : String := "http://schemas.microsoft.com/winfx/2006/xaml"

/-- The namespace that the prefix `xml` always stands for. -/
def xml : String := "http://www.w3.org/XML/1998/namespace"

/-- Names that say which other namespaces a reader may ignore. -/
def compatibility : String := "http://schemas.openxmlformats.org/markup-compatibility/2006"

/-- Namespaces that only a designer reads. -/
def presentation : List String :=
  ["http://schemas.microsoft.com/netfx/2009/xaml/activities/presentation",
    "http://schemas.microsoft.com/netfx/2010/xaml/activities/presentation",
    "http://schemas.microsoft.com/netfx/2010/xaml/activities/debugger"]

/-- Settings of Visual Basic expressions. -/
def visualBasic : String :=
  "clr-namespace:Microsoft.VisualBasic.Activities;assembly=System.Activities"

end Namespace

/-- The qualified name of an element of the activities namespace. -/
def activityName (name : String) : String := qualify Namespace.activities name

/-- The qualified name of an element of the markup language. -/
def languageName (name : String) : String := qualify Namespace.language name

/-- The key of the attribute that lists the namespaces a reader may ignore. -/
def ignorableKey : String := qualify Namespace.compatibility "Ignorable"

end OpenWorkflow.Markup
